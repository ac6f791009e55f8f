/-
  Quietwire.Symbolic.Dialogue

  A conversation over the symbolic primitives, call by call, in which frames are
  overtaken in two chains of the initiator and the first frame of all arrives last.
-/
import Quietwire.Ratchet.Budget
import Quietwire.Symbolic.Schedules

namespace Quietwire
namespace Symbolic

/-! ## Calls within the budget -/

/-- A conversation of at most 1 000 frames within the skip budget. -/
structure Talk (w₀ w : World Letter Nat) (drawn : List Nat) : Prop extends Run w₀ w drawn where
  budgeted : Machine.Reaches (World.step primitives) (World.Budgeted primitives) w₀ w
  stocked : w.Stocked
  few : w.sealings.length ≤ 1000

/-- `x` seals the frame `s`. -/
structure Seals (w : World Letter Nat) (x : Party) (s : Sealing Letter) (v : World Letter Nat) :
    Prop where
  call : w.step primitives (.encrypt x (.ok nonce) plaintext) = (v, .sealed (.ok s.sealed))
  sender : s.sender = x
  chain : s.chain = w.sendingChain x
  plaintext : s.plaintext = plaintext
  number : s.number = (w.sentIn x (w.sendingChain x)).length
  log : v.log = .sealed s :: w.log
  steps : v.steps = w.steps
  sessionElse : v.session x.peer = w.session x.peer
  unopened : s ∈ v.unopened x.peer

/-- `x` opens the frame `s`, with the private ratchet key `own` at hand. -/
structure Receives (w : World Letter Nat) (x : Party) (s : Sealing Letter) (own : Nat)
    (v : World Letter Nat) : Prop extends w.Admitted x s own v where
  call : w.step primitives (.decrypt x s.sealed (.ok own)) = (v, .opened (.ok s.plaintext))

variable {w₀ w v : World Letter Nat} {drawn : List Nat} {x : Party} {s u : Sealing Letter}
  {own : Nat}

namespace Seals

variable (h : Seals w x s v)
include h

theorem sealings : v.sealings = s :: w.sealings := by
  rw [World.sealings, h.log, World.sealings]
  rfl

theorem openedBy (y : Party) : v.openedBy y = w.openedBy y := by
  rw [World.openedBy, h.log, World.openedBy]
  rfl

/-- What was outstanding still is. -/
theorem mem_unopened {y : Party} (hu : u ∈ w.unopened y) : u ∈ v.unopened y := by
  obtain ⟨hmem, hsender, hnot⟩ := World.mem_unopened.mp hu
  refine World.mem_unopened.mpr ⟨?_, hsender, ?_⟩
  · rw [h.sealings]
    exact List.mem_cons_of_mem _ hmem
  · rw [h.openedBy]
    exact hnot

end Seals

/-- Another frame stays outstanding. -/
theorem Receives.mem_unopened (h : Receives w x s own v) {y : Party} (hu : u ∈ w.unopened y)
    (hne : u.number ≠ s.number) : u ∈ v.unopened y := by
  refine (h.toAdmitted.mem_unopened y u).mpr ⟨hu, fun _ heq => hne ?_⟩
  exact Sealing.number_eq_of_sealed heq

namespace Talk

theorem length_others_le (t : Talk w₀ w drawn) : (w.others x s).length ≤ 1000 :=
  ((List.length_filter_le _ _).trans (List.length_filter_le _ _)).trans t.few

/-- A party that has started a sending chain seals its next frame. -/
theorem sends (t : Talk w₀ w drawn) (x : Party) (hstarted : 1 ≤ w.sendingChain x)
    (hroom : w.sealings.length < 1000) : ∃ s v, Seals w x s v ∧ Talk w₀ v drawn := by
  have hlimit : (w.sentIn x (w.sendingChain x)).length < 2000 :=
    Nat.lt_of_le_of_lt ((List.length_filter_le _ _).trans t.few) (by decide)
  obtain ⟨sealed, s', chain, run⟩ :=
    t.lockstep.exists_sealed total hstarted hlimit nonce plaintext
  have hcall : w.step primitives (.encrypt x (.ok nonce) plaintext)
      = (w.recordSealing s' (World.nextSealing primitives w x chain plaintext sealed),
        .sealed (.ok sealed)) := World.encrypt_of_sealed run
  have hbudgeted : w.Budgeted primitives (.encrypt x (.ok nonce) plaintext) := trivial
  have hunforged : w.Unforged primitives (.encrypt x (.ok nonce) plaintext) := trivial
  have h' := t.lockstep.recordNextSealing run
  have hreaches := t.reaches.tail hunforged
  have hwithin := t.budgeted.tail hbudgeted
  rw [hcall] at hreaches hwithin
  refine ⟨World.nextSealing primitives w x chain plaintext sealed, w.recordSealing s' _,
    ⟨hcall, rfl, rfl, rfl, t.lockstep.number_sealed run, rfl, rfl,
      World.session_recordSealing_of_ne _ _ _ x.peer_ne, ?_⟩, ⟨hreaches, h', t.ratchets, t.nodup⟩,
    hwithin, t.stocked.sealing t.lockstep run, hroom⟩
  -- a new frame is ahead of its receiver
  refine World.mem_unopened_of_label List.mem_cons_self (Party.peer_peer _).symm ?_
  exact h'.unopened_of_not_passed (h'.distinct_byLabel t.distinct) List.mem_cons_self
    (Party.peer_peer _).symm (t.lockstep.inReach_nextSealing run).1

/-- An outstanding frame opens; a ratchet key is drawn when it is of a new chain. -/
theorem receives (t : Talk w₀ w drawn) (hs : s ∈ w.unopened x) (own : Nat)
    (hfresh : own ∉ drawn) : ∃ v, Receives w x s own v ∧
      Talk w₀ v (if s.chain ≤ w.steps x then drawn else own :: drawn) := by
  have hmem := (World.mem_unopened.mp hs).1
  obtain ⟨key, s', run, hopened⟩ :=
    t.lockstep.decrypts correct (t.stocked x s hs) t.distinct hs t.length_others_le own
  have hadmitted := hopened.admitted run
  have hbudgeted : w.Budgeted primitives (.decrypt x s.sealed (.ok own)) :=
    .inl ⟨s, hs, rfl, t.length_others_le, own, rfl⟩
  have hunforged := unforged_of_genuine t.lockstep hmem x (.ok own)
  have hlockstep := t.lockstep.step (t.lockstep.distinct_byLabel t.distinct) _
    (hbudgeted.traced t.lockstep correct t.stocked t.distinct)
  have hstocked := t.stocked.call t.lockstep correct t.distinct _ hbudgeted
  refine ⟨_, ⟨hadmitted, Prod.ext rfl ?_⟩, ⟨t.reaches.tail hunforged, hlockstep, ?_, ?_⟩,
    t.budgeted.tail hbudgeted, hstocked, ?_⟩
  · rw [World.step, World.decrypt_of_decrypted run]
  · rw [hadmitted.ratchets, t.ratchets]
  · split
    · exact t.nodup
    · exact List.nodup_cons.mpr ⟨hfresh, t.nodup⟩
  · rw [hadmitted.sealings]
    exact t.few

end Talk

/-! ## A frame that was overtaken -/

/-- The initiator seals two frames, and the second arrives. -/
structure Overtaking where
  (w₀ w₁ w₂ w₃ : World Letter Nat)
  (a₀ a₁ : Sealing Letter)
  start : World.start primitives sharedKey 1 2 = .ok w₀
  steps₀ : w₀.steps = fun _ => 0
  log₀ : w₀.log = []
  seals_a₀ : Seals w₀ .initiator a₀ w₁
  seals_a₁ : Seals w₁ .initiator a₁ w₂
  receives_a₁ : Receives w₂ .responder a₁ 3 w₃
  talk₀ : Talk w₀ w₀ [2, 1]
  talk₁ : Talk w₀ w₁ [2, 1]
  talk₂ : Talk w₀ w₂ [2, 1]
  talk₃ : Talk w₀ w₃ [3, 2, 1]

theorem exists_talk : ∃ w₀ : World Letter Nat,
    World.start primitives sharedKey 1 2 = .ok w₀ ∧ Talk w₀ w₀ [2, 1] ∧
    w₀.steps = (fun _ => 0) ∧ w₀.log = [] := by
  obtain ⟨w₀, hstart, r, hsteps, hlog⟩ := exists_run
  obtain ⟨-, hstocked⟩ := World.stocked_reaches correct hstart .refl r.distinct
  refine ⟨w₀, hstart, ⟨r, .refl, hstocked, ?_⟩, hsteps, hlog⟩
  rw [World.sealings, hlog]
  exact Nat.zero_le _

theorem exists_overtaking : Nonempty Overtaking := by
  obtain ⟨w₀, hstart, t₀, hsteps, hlog⟩ := exists_talk
  have hnone : w₀.sealings = [] := by
    rw [World.sealings, hlog]
    rfl
  obtain ⟨a₀, w₁, h₁, t₁⟩ := t₀.sends .initiator (Nat.succ_pos _) (by simp [hnone])
  obtain ⟨a₁, w₂, h₂, t₂⟩ := t₁.sends .initiator (Nat.succ_pos _)
    (by simp [h₁.sealings, hnone])
  obtain ⟨w₃, h₃, t₃⟩ := t₂.receives (x := .responder) h₂.unopened 3 (by decide)
  refine ⟨⟨w₀, w₁, w₂, w₃, a₀, a₁, hstart, hsteps, hlog, h₁, h₂, h₃, t₀, t₁, t₂,
    ?_⟩⟩
  rw [if_neg] at t₃
  · exact t₃
  · rw [h₂.chain, h₂.steps, World.sendingChain, h₁.steps, hsteps]
    decide

namespace Overtaking

variable (o : Overtaking)

theorem sealings₂ : o.w₂.sealings = [o.a₁, o.a₀] := by
  rw [o.seals_a₁.sealings, o.seals_a₀.sealings, World.sealings, o.log₀]
  rfl

theorem chain_a₀ : o.a₀.chain = 1 := by
  rw [o.seals_a₀.chain, World.sendingChain, o.steps₀]

theorem chain_a₁ : o.a₁.chain = 1 := by
  rw [o.seals_a₁.chain, World.sendingChain, o.seals_a₀.steps, o.steps₀]

theorem number_a₀ : o.a₀.number = 0 := by
  rw [o.seals_a₀.number, sentIn_start o.log₀]
  rfl

theorem number_a₁ : o.a₁.number = 1 := by
  have hchain : o.w₁.sendingChain .initiator = 1 := o.seals_a₁.chain.symm.trans o.chain_a₁
  rw [o.seals_a₁.number, hchain, World.sentIn, o.seals_a₀.sealings, World.sealings, o.log₀]
  simp [o.seals_a₀.sender, o.chain_a₀]

theorem steps₂ (x : Party) : o.w₂.steps x = 0 := by
  rw [o.seals_a₁.steps, o.seals_a₀.steps, o.steps₀]

theorem steps₃_responder : o.w₃.steps .responder = 1 := by
  rw [o.receives_a₁.steps, o.steps₂, o.chain_a₁]
  rfl

theorem steps₃_initiator : o.w₃.steps .initiator = 0 :=
  o.receives_a₁.stepsElse.trans (o.steps₂ .initiator)

theorem unopened_a₀ : o.a₀ ∈ o.w₂.unopened .responder :=
  o.seals_a₁.mem_unopened o.seals_a₀.unopened

/-- The first frame has not arrived. -/
theorem unopened₃_a₀ : o.a₀ ∈ o.w₃.unopened .responder :=
  o.receives_a₁.mem_unopened o.unopened_a₀ (by rw [o.number_a₀, o.number_a₁]; decide)

theorem passed₃_a₀ : o.w₃.Passed .responder o.a₀ := by
  obtain ⟨opened, hsealed, hopened⟩ := o.receives_a₁.openedBy_self
  have hmem : o.a₁ ∈ o.w₃.sealings := by
    rw [o.receives_a₁.sealings, o.sealings₂]
    exact List.mem_cons_self
  -- the frame that arrived is passed, and the other comes before it
  have hpassed := (o.talk₃.lockstep.passed_of_opened o.talk₃.distinct (x := .responder) hmem
    o.seals_a₁.sender (by rw [hopened, ← hsealed]; exact List.mem_cons_self)).1
  have hchain := o.chain_a₁.trans o.chain_a₀.symm
  have hnumber := o.number_a₁
  have hfirst := o.number_a₀
  rw [World.Passed] at hpassed ⊢
  omega

/-- No key was stored for the frame that arrived. -/
theorem position₂_a₁ : (o.w₂.session .responder).skipped.position o.a₁.header = none := by
  have hmem : o.a₁ ∈ o.w₂.sealings := by
    rw [o.sealings₂]
    exact List.mem_cons_self
  refine o.talk₂.lockstep.position_eq_none (x := .responder) o.talk₂.distinct hmem
    o.seals_a₁.sender (World.not_passed_of_lt ?_)
  rw [o.steps₂, o.chain_a₁]
  decide

/-- The key of the other one is now. -/
theorem stored₃_a₀ : ∃ e ∈ (o.w₃.session .responder).skipped, o.w₃.StoredFor .responder e o.a₀ :=
  o.talk₃.stocked _ _ o.unopened₃_a₀ o.passed₃_a₀

end Overtaking

/-! ## The dialogue -/

/-- The responder answers; the initiator, with a new ratchet key, seals two frames in its
    second chain, of which again the second arrives first. -/
structure Dialogue extends Overtaking where
  (w₄ w₅ w₆ w₇ w₈ : World Letter Nat)
  (b₀ a₂ a₃ : Sealing Letter)
  seals_b₀ : Seals w₃ .responder b₀ w₄
  receives_b₀ : Receives w₄ .initiator b₀ 4 w₅
  seals_a₂ : Seals w₅ .initiator a₂ w₆
  seals_a₃ : Seals w₆ .initiator a₃ w₇
  receives_a₃ : Receives w₇ .responder a₃ 5 w₈
  talk₄ : Talk w₀ w₄ [3, 2, 1]
  talk₅ : Talk w₀ w₅ [4, 3, 2, 1]
  talk₆ : Talk w₀ w₆ [4, 3, 2, 1]
  talk₇ : Talk w₀ w₇ [4, 3, 2, 1]
  talk₈ : Talk w₀ w₈ [5, 4, 3, 2, 1]
  chain_b₀ : b₀.chain = 1
  steps₅ : w₅.steps .initiator = 1
  steps₇ : w₇.steps .responder = 1

theorem exists_dialogue : Nonempty Dialogue := by
  obtain ⟨o⟩ := exists_overtaking
  have hthree : o.w₃.sealings = [o.a₁, o.a₀] := by
    rw [o.receives_a₁.sealings, o.sealings₂]
  -- the responder may answer now, and the answer is in its first chain
  obtain ⟨b₀, w₄, h₄, t₄⟩ := o.talk₃.sends .responder (Nat.le_of_eq o.steps₃_responder.symm)
    (by simp [hthree])
  have hchain : b₀.chain = 1 := h₄.chain.trans o.steps₃_responder
  have hnone : w₄.steps .initiator = 0 := by
    rw [h₄.steps]
    exact o.steps₃_initiator
  obtain ⟨w₅, h₅, t₅⟩ := t₄.receives (x := .initiator) h₄.unopened 4 (by decide)
  rw [if_neg (by rw [hchain, hnone]; decide)] at t₅
  have hinitiator : w₅.steps .initiator = 1 := by
    rw [h₅.steps, hnone, hchain]
    rfl
  have hresponder : w₅.steps .responder = 1 := by
    refine h₅.stepsElse.trans ?_
    rw [h₄.steps]
    exact o.steps₃_responder
  -- the answer made the initiator start its second chain
  have hfive : w₅.sealings = [b₀, o.a₁, o.a₀] := by
    rw [h₅.sealings, h₄.sealings, hthree]
  obtain ⟨a₂, w₆, h₆, t₆⟩ := t₅.sends .initiator (Nat.succ_pos _) (by simp [hfive])
  obtain ⟨a₃, w₇, h₇, t₇⟩ := t₆.sends .initiator (Nat.succ_pos _) (by simp [h₆.sealings, hfive])
  have hchain' : a₃.chain = 2 := by
    rw [h₇.chain, World.sendingChain, h₆.steps, hinitiator]
  have hseven : w₇.steps .responder = 1 := by
    rw [h₇.steps, h₆.steps, hresponder]
  obtain ⟨w₈, h₈, t₈⟩ := t₇.receives (x := .responder) h₇.unopened 5 (by decide)
  rw [if_neg (by rw [hchain', hseven]; decide)] at t₈
  exact ⟨⟨o, w₄, w₅, w₆, w₇, w₈, b₀, a₂, a₃, h₄, h₅, h₆, h₇, h₈, t₄, t₅, t₆, t₇, t₈, hchain,
    hinitiator, hseven⟩⟩

namespace Dialogue

variable (d : Dialogue)

theorem sealings₄ : d.w₄.sealings = [d.b₀, d.a₁, d.a₀] := by
  rw [d.seals_b₀.sealings, d.receives_a₁.sealings, d.sealings₂]

theorem sealings₇ : d.w₇.sealings = [d.a₃, d.a₂, d.b₀, d.a₁, d.a₀] := by
  rw [d.seals_a₃.sealings, d.seals_a₂.sealings, d.receives_b₀.sealings, d.sealings₄]

theorem sealings₈ : d.w₈.sealings = [d.a₃, d.a₂, d.b₀, d.a₁, d.a₀] := by
  rw [d.receives_a₃.sealings, d.sealings₇]

theorem steps₄ : d.w₄.steps .initiator = 0 := by
  rw [d.seals_b₀.steps]
  exact d.steps₃_initiator

theorem chain_a₂ : d.a₂.chain = 2 := by
  rw [d.seals_a₂.chain, World.sendingChain, d.steps₅]

theorem chain_a₃ : d.a₃.chain = 2 := by
  rw [d.seals_a₃.chain, World.sendingChain, d.seals_a₂.steps, d.steps₅]

theorem number_a₂ : d.a₂.number = 0 := by
  have hsending : d.w₅.sendingChain .initiator = 2 := d.seals_a₂.chain.symm.trans d.chain_a₂
  rw [d.seals_a₂.number, hsending, World.sentIn, d.receives_b₀.sealings, d.sealings₄]
  simp [d.seals_b₀.sender, d.chain_a₀, d.chain_a₁]

theorem number_a₃ : d.a₃.number = 1 := by
  have hsending : d.w₆.sendingChain .initiator = 2 := d.seals_a₃.chain.symm.trans d.chain_a₃
  rw [d.seals_a₃.number, hsending, World.sentIn, d.seals_a₂.sealings, d.receives_b₀.sealings,
    d.sealings₄]
  simp [d.seals_b₀.sender, d.seals_a₂.sender, d.chain_a₀, d.chain_a₁, d.chain_a₂]

theorem steps₈ : d.w₈.steps .responder = 2 := by
  rw [d.receives_a₃.steps, d.steps₇, d.chain_a₃]
  rfl

/-- The initiator is where it was after its first two frames when the answer arrives. -/
theorem session₄ : d.w₄.session .initiator = d.w₂.session .initiator :=
  d.seals_b₀.sessionElse.trans d.receives_a₁.sessionElse

/-- The answer makes the initiator take a ratchet step. -/
theorem takesStep_b₀ : (d.w₂.session .initiator).takesStep d.b₀.header = true := by
  rw [← d.session₄]
  refine d.talk₄.lockstep.takesStep_next d.talk₄.distinct (World.mem_sentIn.mpr ⟨?_, ?_, ?_⟩)
  · rw [d.sealings₄]
    exact List.mem_cons_self
  · exact d.seals_b₀.sender
  · rw [d.chain_b₀, d.steps₄]

/-- The first frame of all is outstanding to the end. -/
theorem unopened₈_a₀ : d.a₀ ∈ d.w₈.unopened .responder := by
  refine d.receives_a₃.mem_unopened ?_ (by rw [d.number_a₀, d.number_a₃]; decide)
  refine d.seals_a₃.mem_unopened (d.seals_a₂.mem_unopened ?_)
  refine (d.receives_b₀.toAdmitted.mem_unopened _ _).mpr ⟨?_, Party.noConfusion⟩
  exact d.seals_b₀.mem_unopened d.unopened₃_a₀

/-- So is the first frame of the second chain. -/
theorem unopened₈_a₂ : d.a₂ ∈ d.w₈.unopened .responder :=
  d.receives_a₃.mem_unopened (d.seals_a₃.mem_unopened d.seals_a₂.unopened)
    (by rw [d.number_a₂, d.number_a₃]; decide)

end Dialogue

end Symbolic
end Quietwire
