/-
  Quietwire.Fuzz.Injecting

  The target `ratchet_header` never fails: whatever frame the peer sends in its
  place, the genuine frame opens once, and the session goes on.
-/
import Quietwire.Fuzz.Conversing
import Quietwire.Fuzz.RatchetHeader

namespace Quietwire
namespace Fuzz

variable {α σ : Type} [DecidableEq α] [Octet α] {P : Primitives α σ} {sharedKey : SecretKey α}
  {w : World α σ} {random : Random α σ} {rest : List (Random α σ)} {s : Sealing α}

/-! ## One call -/

/-- Alice seals the frame `s`, which Bob has not opened, and the conversation goes on at `v`. -/
structure SealsNext (P : Primitives α σ) (w : World α σ) (random : Random α σ) (s : Sealing α)
    (v : World α σ) : Prop where
  run : sealNext P random.nonce (w.session .initiator) = .ok (s.sealed, v.session .initiator)
  step : w.step P (.encrypt .initiator (.ok random.nonce) plaintext) = (v, .sealed (.ok s.sealed))
  plaintext_eq : s.plaintext = plaintext
  unopened : s ∈ v.unopened .responder
  sealings : v.sealings = s :: w.sealings
  openedBy : v.openedBy .responder = w.openedBy .responder
  session : v.session .responder = w.session .responder
  follows : Follows w random v

theorem seals_next (h : World.Steady P sharedKey w) (total : TotalSealing P)
    (hroom : w.sealings.length < 1000) (hfresh : Fresh P w (random :: rest)) :
    ∃ s v, SealsNext P w random s v ∧ World.Steady P sharedKey v := by
  obtain ⟨s', sealing, hstep, hsender, hplaintext, hnonce, hsteady⟩ :=
    h.seals (x := .initiator) total (Nat.succ_pos _) hroom random.nonce plaintext
  have hcall := call_of_ok (World.encrypt_eq_ok hstep)
  have hnew := h.unopened_recordSealing s' (hnonce ▸ hfresh.nonce)
  rw [hsender] at hnew
  refine ⟨sealing, _, ⟨?_, hstep, hplaintext, hnew, rfl, ?_, ?_, ?_, .inl rfl⟩, hsteady⟩
  · rw [sealNext, hcall]
    rfl
  · exact World.openedBy_recordSealing _ _ _ _
  · exact World.session_recordSealing_of_ne _ _ _ (by rw [hsender]; decide)
  · exact .inr (by rw [World.nonces, World.sealings_recordSealing, List.map_cons, hnonce]; rfl)

/-- A frame that Bob has not opened opens. -/
theorem opens_next (h : World.Steady P sharedKey w) (free : FreeKdf P)
    (fresh : FreshSharedKey P sharedKey) (correct : CorrectPrimitives P)
    (hs : s ∈ w.unopened .responder) (hfresh : Fresh P w (random :: rest)) :
    ∃ v, call (Session.decrypt P s.sealed (.ok random.ratchet)) (w.session .responder)
        = .ok (.ok s.plaintext, v.session .responder) ∧
      w.step P (.decrypt .responder s.sealed (.ok random.ratchet))
        = (v, .opened (.ok s.plaintext)) ∧
      w.Admitted .responder s random.ratchet v ∧ Follows w random v ∧
      World.Steady P sharedKey v := by
  obtain ⟨v, hstep, a, hsteady⟩ := h.admits free fresh correct hs hfresh.ratchet
  refine ⟨v, call_of_ok (World.decrypt_eq_ok hstep), hstep, a, ⟨.inl ?_, a.ratchets_cases⟩, hsteady⟩
  rw [World.nonces, a.sealings, World.nonces]

/-- A frame that Bob has not got outstanding is refused, and nothing changes. -/
theorem refuses_next (h : World.Steady P sharedKey w) (free : FreeKdf P)
    (fresh : FreshSharedKey P sharedKey) (correct : CorrectPrimitives P) (lengths : TagRemoved P)
    (hsenders : ∀ s ∈ w.sealings, s.sender = .initiator) {sealed : SealedFrame α}
    (hforeign : ∀ s ∈ w.unopened .responder, s.sealed ≠ sealed)
    (hunforged : w.Unforged P (.decrypt .responder sealed (.ok random.ratchet))) :
    ∃ e, call (Session.decrypt P sealed (.ok random.ratchet)) (w.session .responder)
        = .ok (.error e, w.session .responder) ∧
      (w.step P (.decrypt .responder sealed (.ok random.ratchet))).1 = w := by
  have hrefused : ∃ e, w.step P (.decrypt .responder sealed (.ok random.ratchet))
      = (w, .opened (.error (.error e))) := by
    by_cases hsealed : ∃ s ∈ w.sealings, s.sealed = sealed
    · obtain ⟨s, hs, rfl⟩ := hsealed
      have hopened : s.sealed ∈ (w.openedBy .responder).map Opening.sealed := by
        by_contra hnot
        exact hforeign s (World.mem_unopened.mpr ⟨hs, hsenders s hs, hnot⟩) rfl
      exact ⟨_, h.refuses_replay free fresh correct lengths hs (hsenders s hs) hopened hunforged⟩
    · exact World.Steady.refuses_foreign lengths
        (fun s hs heq => hsealed ⟨s, hs, heq⟩) hunforged
  obtain ⟨e, hstep⟩ := hrefused
  exact ⟨e, call_of_error (World.decrypt_eq_error hstep), by rw [hstep]⟩

/-! ## The frame of the peer, and the genuine one -/

/-- Two tries at a frame that Bob has outstanding: the first with what the peer sent in its
    place, the second with the frame itself. -/
structure TriedTwice (P : Primitives α σ) (w : World α σ) (sealed : SealedFrame α)
    (s : Sealing α) (first second : Random α σ) (v : World α σ) : Prop where
  runs : ∃ result again bob,
    call (Session.decrypt P sealed (.ok first.ratchet)) (w.session .responder)
      = .ok (result, bob) ∧
    call (Session.decrypt P s.sealed (.ok second.ratchet)) bob
      = .ok (again, v.session .responder) ∧
    ((sealed = s.sealed ∧ result = .ok s.plaintext ∧ ∃ e, again = .error e) ∨
      (sealed ≠ s.sealed ∧ (∃ e, result = .error e) ∧ again = .ok s.plaintext))
  session : v.session .initiator = w.session .initiator
  sealings : v.sealings = w.sealings

/-- The genuine frame opens exactly once, whatever the peer sends first. -/
theorem tried_twice (h : World.Steady P sharedKey w) (free : FreeKdf P)
    (fresh : FreshSharedKey P sharedKey) (correct : CorrectPrimitives P) (lengths : TagRemoved P)
    (hsenders : ∀ s ∈ w.sealings, s.sender = .initiator) {sealed : SealedFrame α}
    (honly : ∀ t, t ∈ w.unopened .responder ↔ t = s) {first second : Random α σ}
    (hfresh : Fresh P w (first :: second :: rest))
    (hunforged : Machine.Allowed (World.step P) (World.Unforged P) w
      [.decrypt .responder sealed (.ok first.ratchet),
        .decrypt .responder s.sealed (.ok second.ratchet)]) :
    ∃ v, TriedTwice P w sealed s first second v ∧ World.Steady P sharedKey v ∧
      Fresh P v rest := by
  obtain ⟨hfirst, hsecond, -⟩ := hunforged
  by_cases hgenuine : sealed = s.sealed
  · subst hgenuine
    obtain ⟨v, hcall, hstep, a, hfollows, hsteady⟩ :=
      opens_next h free fresh correct ((honly s).mpr rfl) hfresh
    rw [hstep] at hsecond
    obtain ⟨e, hagain, -⟩ := refuses_next hsteady free fresh correct lengths
      (by rw [a.sealings]; exact hsenders)
      (fun t ht => ((a.mem_unopened .responder t).mp ht).2 rfl) hsecond
    refine ⟨v, ⟨⟨_, _, _, hcall, hagain, .inl ⟨rfl, rfl, e, rfl⟩⟩, a.sessionElse, a.sealings⟩,
      hsteady, (hfresh.follows hfollows).follows (.refl v second)⟩
  · have hforeign : ∀ t ∈ w.unopened .responder, t.sealed ≠ sealed := by
      intro t ht heq
      rw [(honly t).mp ht] at heq
      exact hgenuine heq.symm
    obtain ⟨e, hcall, hstep⟩ :=
      refuses_next h free fresh correct lengths hsenders hforeign hfirst
    have hfresh' := hfresh.follows (.refl w first)
    obtain ⟨v, hagain, -, a, hfollows, hsteady⟩ :=
      opens_next h free fresh correct ((honly s).mpr rfl) hfresh'
    exact ⟨v, ⟨⟨_, _, _, hcall, hagain, .inr ⟨hgenuine, ⟨e, rfl⟩, rfl⟩⟩, a.sessionElse,
      a.sealings⟩, hsteady, hfresh'.follows hfollows⟩

/-! ## The target -/

/-- The calls that the target makes on the sessions, up to the second try. -/
def headerCalls (P : Primitives α σ) (random : Nat → Random α σ) (input : Input α)
    (alice : Session α σ) : List (Event α σ) :=
  match sealNext P (random 0).nonce alice with
  | .error _ => []
  | .ok (opening, alice) =>
    match sealNext P (random 2).nonce alice with
    | .error _ => []
    | .ok (genuine, _) =>
      [.encrypt .initiator (.ok (random 0).nonce) plaintext,
        .decrypt .responder opening (.ok (random 1).ratchet),
        .encrypt .initiator (.ok (random 2).nonce) plaintext,
        .decrypt .responder (input.peer genuine) (.ok (random 3).ratchet),
        .decrypt .responder genuine (.ok (random 4).ratchet)]

/-- Alice seals two frames, and Bob opens the first: then only the second is outstanding. -/
structure Exchanged (P : Primitives α σ) (w₀ : World α σ) (random : Nat → Random α σ)
    (s₁ s₂ : Sealing α) (w₁ w₂ w₃ : World α σ) : Prop where
  opening : SealsNext P w₀ (random 0) s₁ w₁
  sealedSteady : World.Steady P Fuzz.sharedKey w₁
  read : call (Session.decrypt P s₁.sealed (.ok (random 1).ratchet)) (w₁.session .responder)
    = .ok (.ok s₁.plaintext, w₂.session .responder)
  readStep : w₁.step P (.decrypt .responder s₁.sealed (.ok (random 1).ratchet))
    = (w₂, .opened (.ok s₁.plaintext))
  alice : w₂.session .initiator = w₁.session .initiator
  genuine : SealsNext P w₂ (random 2) s₂ w₃
  steady : World.Steady P Fuzz.sharedKey w₃
  sealings : w₃.sealings = [s₂, s₁]
  only : ∀ s, s ∈ w₃.unopened .responder ↔ s = s₂

section Target

variable {signedPrekey ownRatchet : σ} {w₀ w₁ w₂ w₃ : World α σ} {random : Nat → Random α σ}
  {s₁ s₂ : Sealing α}

theorem exchanged (free : FreeKdf P) (fresh : FreshSharedKey P Fuzz.sharedKey)
    (correct : CorrectPrimitives P) (total : TotalSealing P)
    (hstart : World.start P Fuzz.sharedKey signedPrekey ownRatchet = .ok w₀)
    (hfresh : Fresh P w₀ ((List.range 7).map random)) :
    ∃ s₁ s₂ w₁ w₂ w₃, Exchanged P w₀ random s₁ s₂ w₁ w₂ w₃ ∧
      Fresh P w₃ [random 3, random 4, random 5, random 6] := by
  have hsteady := hfresh.steady hstart
  have hdraws : Fresh P w₀ (random 0 :: random 1 :: random 2 ::
    [random 3, random 4, random 5, random 6]) := hfresh
  have hempty : w₀.sealings = [] := by
    obtain ⟨-, rfl⟩ := World.start_eq_ok_iff.mp hstart
    rfl
  obtain ⟨s₁, w₁, hopening, hsteady₁⟩ := seals_next hsteady total
    (by rw [hempty]; exact Nat.succ_pos _) hdraws
  have hfresh₁ := hdraws.follows hopening.follows
  obtain ⟨w₂, hread, hstep, a, hfollows, hsteady₂⟩ :=
    opens_next hsteady₁ free fresh correct hopening.unopened hfresh₁
  have hfresh₂ := hfresh₁.follows hfollows
  have hone : w₂.sealings = [s₁] := by rw [a.sealings, hopening.sealings, hempty]
  obtain ⟨s₂, w₃, hgenuine, hsteady₃⟩ := seals_next hsteady₂ total
    (by rw [hone]; show 1 < 1000; decide) hfresh₂
  have htwo : w₃.sealings = [s₂, s₁] := by rw [hgenuine.sealings, hone]
  refine ⟨s₁, s₂, w₁, w₂, w₃, ⟨hopening, hsteady₁, hread, hstep, a.sessionElse, hgenuine,
    hsteady₃, htwo, ?_⟩, hfresh₂.follows hgenuine.follows⟩
  intro s
  constructor
  · intro hs
    obtain ⟨hmem, -, hnot⟩ := World.mem_unopened.mp hs
    rw [htwo] at hmem
    rcases List.mem_pair.mp hmem with rfl | rfl
    · rfl
    · -- the first frame has been opened
      obtain ⟨o, hsealed, hopened⟩ := a.openedBy_self
      rw [hgenuine.openedBy, hopened, List.map_cons, hsealed] at hnot
      exact absurd List.mem_cons_self hnot
  · rintro rfl
    exact hgenuine.unopened

namespace Exchanged

variable (h : Exchanged P w₀ random s₁ s₂ w₁ w₂ w₃)
include h

theorem senders : ∀ s ∈ w₃.sealings, s.sender = .initiator := by
  have hone := (World.mem_unopened.mp h.opening.unopened).2.1
  have htwo := (World.mem_unopened.mp h.genuine.unopened).2.1
  rw [h.sealings]
  intro s hs
  rcases List.mem_pair.mp hs with rfl | rfl
  · exact htwo
  · exact hone

theorem genuineRun : sealNext P (random 2).nonce (w₁.session .initiator)
    = .ok (s₂.sealed, w₃.session .initiator) := by
  rw [← h.alice]
  exact h.genuine.run

/-- The peer has a hand in the last two calls only. -/
theorem allowed_iff (input : Input α) :
    Machine.Allowed (World.step P) (World.Unforged P) w₀
        (headerCalls P random input (w₀.session .initiator)) ↔
      w₁.Unforged P (.decrypt .responder s₁.sealed (.ok (random 1).ratchet)) ∧
      Machine.Allowed (World.step P) (World.Unforged P) w₃
        [.decrypt .responder (input.peer s₂.sealed) (.ok (random 3).ratchet),
          .decrypt .responder s₂.sealed (.ok (random 4).ratchet)] := by
  rw [headerCalls, h.opening.run]
  simp only [h.genuineRun]
  rw [Machine.Allowed, Machine.Allowed, Machine.Allowed, h.opening.step, h.readStep,
    h.genuine.step]
  constructor
  · rintro ⟨-, hread, -, hunforged⟩
    exact ⟨hread, hunforged⟩
  · rintro ⟨hread, hunforged⟩
    exact ⟨trivial, hread, trivial, hunforged⟩

end Exchanged

/-- No input makes the target fail: whatever frame the peer sends in place of the genuine one,
    made from it by edits, with another header, or of any bytes, only the genuine frame opens,
    it opens exactly once, and the session opens the next one. -/
theorem ratchet_header_never_fails (free : FreeKdf P) (fresh : FreshSharedKey P Fuzz.sharedKey)
    (correct : CorrectPrimitives P) (total : TotalSealing P) (lengths : TagRemoved P)
    (hstart : World.start P Fuzz.sharedKey signedPrekey ownRatchet = .ok w₀)
    (hfresh : Fresh P w₀ ((List.range 7).map random)) (input : Input α)
    (hunforged : Machine.Allowed (World.step P) (World.Unforged P) w₀
      (headerCalls P random input (w₀.session .initiator))) :
    ratchetHeader P signedPrekey ownRatchet random input = .ok () := by
  obtain ⟨s₁, s₂, w₁, w₂, w₃, h, hdraws⟩ :=
    exchanged free fresh correct total hstart hfresh
  obtain ⟨w₄, htwice, hsteady₄, hdraws₄⟩ := tried_twice h.steady free fresh correct lengths
    h.senders h.only hdraws ((h.allowed_iff input).mp hunforged).2
  -- the conversation goes on
  obtain ⟨s₃, w₅, hnext, hsteady₅⟩ := seals_next hsteady₄ total
    (by rw [htwice.sealings, h.sealings]; show 2 < 1000; decide) hdraws₄
  obtain ⟨w₆, hlast, -⟩ := opens_next hsteady₅ free fresh correct hnext.unopened
    (hdraws₄.follows hnext.follows)
  obtain ⟨result, again, bob, hfirst, hagain, hverdict⟩ := htwice.runs
  have hread := h.read
  have hnextRun := hnext.run
  rw [h.opening.session] at hread
  rw [h.genuine.session] at hfirst
  rw [htwice.session] at hnextRun
  rw [hnext.session] at hlast
  simp only [ratchetHeader, sessions_start hstart, h.opening.run, hread, h.genuineRun, hfirst,
    hagain, hnextRun, hlast, bind, Except.bind, pure, Except.pure]
  rcases hverdict with ⟨hsame, rfl, e, rfl⟩ | ⟨hother, ⟨e, rfl⟩, rfl⟩
  · have hparts : (input.peer s₂.sealed).nonce = s₂.sealed.nonce ∧
        (input.peer s₂.sealed).frame = s₂.sealed.frame := by
      rw [hsame]
      exact ⟨rfl, rfl⟩
    simp [hparts, h.genuine.plaintext_eq, hnext.plaintext_eq, Except.isOk, Except.toBool]
  · have hparts : ¬ ((input.peer s₂.sealed).nonce = s₂.sealed.nonce ∧
        (input.peer s₂.sealed).frame = s₂.sealed.frame) := by
      rintro ⟨hnonce, hframe⟩
      exact hother (congrArg₂ SealedFrame.mk hnonce hframe)
    simp [hparts, hnext.plaintext_eq, Except.isOk, Except.toBool]

end Target

/-! ## A run over the symbolic primitives -/

section Symbolic

open Symbolic (Letter primitives)

/-- The genuine frame, with a byte of its nonce changed. -/
def renonced : Input Letter := ⟨.genuine [⟨3, 1⟩], .whole (.genuine [])⟩

theorem renonced_peer (genuine : SealedFrame Letter) :
    renonced.peer genuine = tampered genuine (byteAt 3) 1 := by
  rw [tampered, dif_pos (by decide)]
  rfl

/-- The frame with the changed nonce is refused, and the genuine one still opens after it. -/
theorem ratchet_header_never_fails_symbolic :
    ratchetHeader primitives 1 2 draw renonced = .ok () := by
  have hstarts : ∃ w, World.start primitives Fuzz.sharedKey 1 2 = .ok w ∧ w.ratchets = [2, 1] ∧
      w.steps = (fun _ => 0) ∧ w.log = [] := World.exists_start (Symbolic.correct.contributory 2 1)
  obtain ⟨w₀, hstart, hratchets, -, hlog⟩ := hstarts
  have hfresh : Fresh primitives w₀ ((List.range 7).map draw) :=
    fresh_draws hratchets hlog 7
  refine ratchet_header_never_fails Symbolic.free fresh_sharedKey Symbolic.correct Symbolic.total
    (fun _ _ _ _ _ => Symbolic.length_of_opens) hstart hfresh renonced ?_
  obtain ⟨s₁, s₂, w₁, w₂, w₃, h, hdraws⟩ := exchanged Symbolic.free fresh_sharedKey
    Symbolic.correct Symbolic.total hstart hfresh
  have hmem : s₂ ∈ w₃.sealings := (World.mem_unopened.mp h.genuine.unopened).1
  obtain ⟨key, -, hopens⟩ := (h.steady.lockstep.genuine s₂ hmem).opens Symbolic.correct
  have hclosed : w₃.Unforged primitives
      (.decrypt .responder (renonced.peer s₂.sealed) (.ok (draw 3).ratchet)) := by
    rw [renonced_peer]
    intro key' plaintext _ hforged
    exact absurd hforged (Symbolic.closed_of_tampered hopens _ (by decide) _ _)
  have hforeign : ∀ s ∈ w₃.unopened .responder, s.sealed ≠ renonced.peer s₂.sealed := by
    intro s hs
    rw [renonced_peer]
    exact tampered_foreign h.steady hdraws.nodup_nonces hmem _ (by decide) s
      (World.mem_unopened.mp hs).1
  obtain ⟨e, -, hstep⟩ := refuses_next h.steady Symbolic.free fresh_sharedKey Symbolic.correct
    (fun _ _ _ _ _ => Symbolic.length_of_opens) h.senders hforeign hclosed
  refine (h.allowed_iff renonced).mpr ⟨?_, hclosed, ?_, trivial⟩
  · exact Symbolic.unforged_of_genuine h.sealedSteady.lockstep
      (World.mem_unopened.mp h.opening.unopened).1 _ _
  · rw [hstep]
    exact Symbolic.unforged_of_genuine h.steady.lockstep hmem _ _

end Symbolic

end Fuzz
end Quietwire
