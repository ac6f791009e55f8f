/-
  Quietwire.Fuzz.Conversing

  The target `ratchet_session` never fails: whatever the actions, every frame that
  a delivery picks opens once to its plaintext and is refused as a duplicate after
  that, no tampered frame opens, and only a responder that has received nothing
  cannot send.
-/
import Quietwire.Fuzz.Stepping
import Quietwire.Symbolic.Tampering

namespace Quietwire
namespace Fuzz

variable {α σ : Type} [DecidableEq α] [Octet α] {P : Primitives α σ} {c : Conversation α σ}
  {w : World α σ} {random : Random α σ} {rest : List (Random α σ)}

/-! ## Whole runs -/

namespace Conversation

variable (P)

/-- The call on the sessions that an action makes. -/
def call? (c : Conversation α σ) (random : Random α σ) : Action → Option (Event α σ)
  | .send sender => some (.encrypt sender (.ok random.nonce) (numberedPlaintext c.sent))
  | .deliver receiver pick =>
    (c.index receiver pick).bind fun index => (c.inbox receiver)[index]?.map fun frame =>
      .decrypt receiver frame.sealed (.ok random.ratchet)
  | .tamper receiver pick at_ xor =>
    (c.index receiver pick).bind fun index => (c.inbox receiver)[index]?.bind fun frame =>
      if xor = 0 then none
      else some (.decrypt receiver (tampered frame.sealed (byteAt at_) xor)
        (.ok random.ratchet))

/-- The calls on the sessions that a run makes. -/
def calls : Conversation α σ → List (Action × Random α σ) → List (Event α σ)
  | _, [] => []
  | c, (action, random) :: rest =>
    (c.call? random action).toList ++
      match c.apply P random action with
      | .ok c' => c'.calls rest
      | .error _ => []

omit [DecidableEq α] [Octet α] in
theorem index_cases (c : Conversation α σ) (receiver : Party) (pick : UInt8) :
    c.index receiver pick = none ∨
      ∃ index frame, c.index receiver pick = some index ∧
        (c.inbox receiver)[index]? = some frame := by
  rw [index]
  split
  · next hpos =>
    have hlt := Nat.mod_lt pick.toNat hpos
    exact .inr ⟨_, _, rfl, List.getElem?_eq_getElem hlt⟩
  · exact .inl rfl

end Conversation

/-- Where the call of an action, if it makes one, leads. -/
def after (P : Primitives α σ) (w : World α σ) : Option (Event α σ) → World α σ
  | none => w
  | some event => (w.step P event).1

section Run

variable (free : FreeKdf P) (fresh : FreshSharedKey P Fuzz.sharedKey)
  (correct : CorrectPrimitives P) (total : TotalSealing P) (lengths : TagRemoved P)
include free fresh correct total lengths

/-- No action fails. -/
theorem Shadows.apply (h : Shadows P c w) (hroom : c.sent.toNat < 1000)
    (hfresh : Fresh P w (random :: rest)) (action : Action)
    (hunforged : ∀ event ∈ c.call? random action, w.Unforged P event) :
    ∃ c', c.apply P random action = .ok c' ∧
      Moved P c w random c' (after P w (c.call? random action)) := by
  have hidle : Moved P c w random c w := ⟨h, .refl w random, Nat.le_succ _⟩
  cases action with
  | send sender => exact h.send hroom total hfresh
  | deliver receiver pick =>
    rcases c.index_cases receiver pick with hnone | ⟨index, frame, hindex, hframe⟩
    · refine ⟨c, ?_, ?_⟩
      · rw [Conversation.apply, Conversation.deliver, hnone]
        rfl
      · rw [Conversation.call?, hnone]
        exact hidle
    · have hcall : c.call? random (.deliver receiver pick)
          = some (.decrypt receiver frame.sealed (.ok random.ratchet)) := by
        simp only [Conversation.call?, hindex, hframe, Option.bind_some, Option.map_some]
      rw [hcall] at hunforged ⊢
      rw [Conversation.apply, Conversation.deliver, hindex]
      exact h.deliverAt free fresh correct lengths hfresh hframe (hunforged _ rfl)
  | tamper receiver pick at_ xor =>
    rcases c.index_cases receiver pick with hnone | ⟨index, frame, hindex, hframe⟩
    · refine ⟨c, ?_, ?_⟩
      · rw [Conversation.apply, Conversation.tamper, hnone]
        rfl
      · rw [Conversation.call?, hnone]
        exact hidle
    · by_cases hxor : xor = 0
      · refine ⟨c, ?_, ?_⟩
        · rw [Conversation.apply, Conversation.tamper, hindex, hxor]
          rfl
        · simp only [Conversation.call?, hindex, hframe, hxor, Option.bind_some, if_true]
          exact hidle
      · have hcall : c.call? random (.tamper receiver pick at_ xor)
            = some (.decrypt receiver (tampered frame.sealed (byteAt at_) xor)
              (.ok random.ratchet)) := by
          simp only [Conversation.call?, hindex, hframe, hxor, Option.bind_some, if_false]
        rw [hcall] at hunforged ⊢
        obtain ⟨e, hstep⟩ := h.tamper lengths hfresh hframe hxor (hunforged _ rfl)
        have hrefused : call (Session.decrypt P
            (tampered frame.sealed (byteAt at_) xor) (.ok random.ratchet))
            (c.session receiver) = .ok (.error e, w.session receiver) := by
          rw [h.session]
          exact call_of_error (World.decrypt_eq_error hstep)
        rw [after, hstep]
        refine ⟨_, ?_, h.refused receiver random⟩
        simp only [Conversation.apply, Conversation.tamper, hindex, hframe, hxor, hrefused, bind,
          Except.bind, pure, Except.pure, if_false]

/-- No run of at most 1 000 actions fails. -/
theorem Shadows.applyAll (h : Shadows P c w) (steps : List (Action × Random α σ))
    (hroom : c.sent.toNat + steps.length ≤ 1000) (hfresh : Fresh P w (steps.map Prod.snd))
    (hunforged : Machine.Allowed (World.step P) (World.Unforged P) w (c.calls P steps)) :
    ∃ c' v, c.applyAll P steps = .ok c' ∧ Shadows P c' v := by
  induction steps generalizing c w with
  | nil => exact ⟨c, w, rfl, h⟩
  | cons step steps ih =>
    obtain ⟨action, random⟩ := step
    rw [List.length_cons] at hroom
    rw [Conversation.calls] at hunforged
    have hfirst : ∀ event ∈ c.call? random action, w.Unforged P event := by
      intro event hevent
      rw [Option.mem_def.mp hevent] at hunforged
      exact hunforged.1
    obtain ⟨c', hrun, moved⟩ := h.apply free fresh correct total lengths (by omega) hfresh action
      hfirst
    have hrest : Machine.Allowed (World.step P) (World.Unforged P)
        (after P w (c.call? random action)) (c'.calls P steps) := by
      rw [hrun] at hunforged
      cases hcall : c.call? random action with
      | none =>
        rw [hcall] at hunforged
        exact hunforged
      | some event =>
        rw [hcall] at hunforged
        exact hunforged.2
    obtain ⟨c'', v, hruns, hshadows⟩ := ih moved.shadows
      (by have hsent := moved.sent; omega) (hfresh.follows moved.follows) hrest
    refine ⟨c'', v, ?_, hshadows⟩
    rw [Conversation.applyAll, hrun]
    exact hruns

end Run

/-- The two sessions start as those of a conversation. -/
theorem shadows_new {signedPrekey ownRatchet : σ}
    (hstart : World.start P Fuzz.sharedKey signedPrekey ownRatchet = .ok w)
    (hsteady : World.Steady P Fuzz.sharedKey w) :
    ∃ c, Conversation.new P signedPrekey ownRatchet = .ok c ∧ c.sent = 0 ∧ Shadows P c w := by
  refine ⟨⟨w.session .initiator, w.session .responder, [], [], false, 0⟩, ?_, rfl, hsteady,
    fun x => ?_, fun x => ?_, ?_, ?_⟩
  · rw [Conversation.new, sessions_start hstart]
    rfl
  · cases x <;> rfl
  · obtain ⟨-, rfl⟩ := World.start_eq_ok_iff.mp hstart
    cases x <;> exact .nil
  · obtain ⟨-, rfl⟩ := World.start_eq_ok_iff.mp hstart
    exact iff_of_false Bool.noConfusion (Nat.not_succ_le_zero 0)
  · obtain ⟨-, rfl⟩ := World.start_eq_ok_iff.mp hstart
    exact Nat.zero_le _

/-- No input makes the target fail.  In every run of at most 256 actions, whatever the picks
    and the edits, with new nonces and ratchet keys drawn and an unforgeable AEAD: a party
    that can send seals its frame, a responder that has received nothing is blocked; a frame
    in flight opens to its plaintext the first time it is delivered, in any order and with any
    losses, and fails to authenticate when it is delivered again; and no frame opens with a
    byte changed. -/
theorem ratchet_session_never_fails (free : FreeKdf P) (fresh : FreshSharedKey P Fuzz.sharedKey)
    (correct : CorrectPrimitives P) (total : TotalSealing P) (lengths : TagRemoved P)
    {signedPrekey ownRatchet : σ} {w₀ : World α σ}
    (hstart : World.start P Fuzz.sharedKey signedPrekey ownRatchet = .ok w₀)
    (actions : List (Action × Random α σ))
    (hfresh : Fresh P w₀ ((actions.take maxActions).map Prod.snd))
    (hunforged : ∀ c₀, Conversation.new P signedPrekey ownRatchet = .ok c₀ →
      Machine.Allowed (World.step P) (World.Unforged P) w₀
        (c₀.calls P (actions.take maxActions))) :
    ratchetSession P signedPrekey ownRatchet actions = .ok () := by
  obtain ⟨c₀, hnew, hsent, hshadows⟩ := shadows_new hstart (hfresh.steady hstart)
  have hlen : (actions.take maxActions).length ≤ 256 := List.length_take_le _ _
  obtain ⟨c, -, hrun, -⟩ := hshadows.applyAll free fresh correct total lengths _
    (by rw [hsent]; show 0 + _ ≤ 1000; omega) hfresh (hunforged c₀ hnew)
  rw [ratchetSession, hnew]
  show (do let _ ← c₀.applyAll P (actions.take maxActions); return ()) = _
  rw [hrun]
  rfl

/-! ## A run over the symbolic primitives -/

section Symbolic

open Symbolic (Letter primitives)

variable {c : Conversation Letter Nat} {w : World Letter Nat} {random : Random Letter Nat}
  {rest : List (Random Letter Nat)}

theorem fresh_sharedKey : FreshSharedKey primitives Fuzz.sharedKey :=
  Symbolic.fresh_replicate 0x42

/-- The AEAD is unforgeable for every call of the target: it makes them on genuine frames and
    on tampered ones. -/
theorem Shadows.unforged (h : Shadows primitives c w) (action : Action) :
    ∀ event ∈ c.call? random action, w.Unforged primitives event := by
  intro event hevent
  cases action with
  | send sender =>
    obtain rfl := Option.some.inj hevent
    trivial
  | deliver receiver pick =>
    rcases c.index_cases receiver pick with hnone | ⟨index, frame, hindex, hframe⟩
    · simp [Conversation.call?, hnone] at hevent
    · simp only [Conversation.call?, hindex, hframe, Option.bind_some, Option.map_some,
        Option.mem_def, Option.some.injEq] at hevent
      subst hevent
      obtain ⟨s, hs, htracks⟩ := Paired.getElem? (h.inbox receiver) hframe
      rw [htracks.sealed]
      exact Symbolic.unforged_of_genuine h.steady.lockstep
        (World.mem_sentTo.mp (List.mem_of_getElem? hs)).1 receiver _
  | tamper receiver pick at_ xor =>
    rcases c.index_cases receiver pick with hnone | ⟨index, frame, hindex, hframe⟩
    · simp [Conversation.call?, hnone] at hevent
    · simp only [Conversation.call?, hindex, hframe, Option.bind_some] at hevent
      split at hevent
      · cases hevent
      · next hxor =>
        obtain rfl := Option.some.inj hevent
        obtain ⟨s, hs, htracks⟩ := Paired.getElem? (h.inbox receiver) hframe
        have hmem := (World.mem_sentTo.mp (List.mem_of_getElem? hs)).1
        obtain ⟨key, -, hopens⟩ := (h.steady.lockstep.genuine s hmem).opens Symbolic.correct
        rw [htracks.sealed]
        intro key' plaintext _ hforged
        exact absurd hforged (Symbolic.closed_of_tampered hopens _ hxor _ _)

theorem Shadows.allowed (h : Shadows primitives c w) (steps : List (Action × Random Letter Nat))
    (hroom : c.sent.toNat + steps.length ≤ 1000)
    (hfresh : Fresh primitives w (steps.map Prod.snd)) :
    Machine.Allowed (World.step primitives) (World.Unforged primitives) w
      (c.calls primitives steps) := by
  induction steps generalizing c w with
  | nil => trivial
  | cons step steps ih =>
    obtain ⟨action, random⟩ := step
    rw [List.length_cons] at hroom
    have hunforged : ∀ event ∈ c.call? random action, w.Unforged primitives event :=
      h.unforged action
    obtain ⟨c', hrun, moved⟩ := h.apply Symbolic.free fresh_sharedKey Symbolic.correct
      Symbolic.total (fun _ _ _ _ _ => Symbolic.length_of_opens) (by omega) hfresh action hunforged
    have hrest := ih moved.shadows (by have hsent := moved.sent; omega)
      (hfresh.follows moved.follows)
    rw [Conversation.calls, hrun]
    cases hcall : c.call? random action with
    | none =>
      rw [hcall] at hrest
      exact hrest
    | some event =>
      rw [hcall] at hrest
      exact ⟨hunforged event hcall, hrest⟩

/-- What an RNG gives that never repeats itself. -/
def draw (i : Nat) : Random Letter Nat := ⟨Symbolic.padded 24 (.kemKey i), i + 3⟩

theorem fresh_draws {w : World Letter Nat} (hratchets : w.ratchets = [2, 1]) (hlog : w.log = [])
    (n : Nat) : Fresh primitives w ((List.range n).map draw) := by
  have hnonces : w.nonces = [] := by
    rw [World.nonces, World.sealings, hlog]
    rfl
  constructor
  · rw [hnonces, List.append_nil, List.map_map]
    refine List.nodup_range.map fun i j hij => ?_
    exact Letter.kemKey.inj ((Symbolic.padded_inj (n := 24) (by decide)).mp hij)
  · refine List.Nodup.map (fun a b => Symbolic.publicKey_inj.mp) ?_
    rw [hratchets, List.map_map]
    refine List.Nodup.append ?_ (by decide) ?_
    · exact List.nodup_range.map fun i j hij => Nat.add_right_cancel hij
    · intro own hown
      obtain ⟨i, -, rfl⟩ := List.mem_map.mp hown
      simp [draw]

/-- Alice sends two frames, of which the second arrives first and again; a byte of the other
    is changed on the way, before it arrives as well; and Bob, who was blocked at first,
    answers. -/
theorem ratchet_session_never_fails_symbolic :
    ratchetSession primitives 1 2 (List.zip
      [.send .responder, .send .initiator, .send .initiator, .deliver .responder 1,
        .deliver .responder 1, .tamper .responder 0 30 1, .deliver .responder 0,
        .send .responder, .deliver .initiator 5] ((List.range 9).map draw)) = .ok () := by
  have hstarts : ∃ w, World.start primitives Fuzz.sharedKey 1 2 = .ok w ∧ w.ratchets = [2, 1] ∧
      w.steps = (fun _ => 0) ∧ w.log = [] := World.exists_start (Symbolic.correct.contributory 2 1)
  obtain ⟨w₀, hstart, hratchets, -, hlog⟩ := hstarts
  have hfresh := fresh_draws hratchets hlog 9
  refine ratchet_session_never_fails Symbolic.free fresh_sharedKey Symbolic.correct Symbolic.total
    (fun _ _ _ _ _ => Symbolic.length_of_opens) hstart _ hfresh fun c₀ hnew => ?_
  obtain ⟨c, hnew', hsent, hshadows⟩ := shadows_new hstart (hfresh.steady hstart)
  obtain rfl := Except.ok.inj (hnew.symm.trans hnew')
  exact hshadows.allowed _ (by rw [hsent]; decide) hfresh

end Symbolic

end Fuzz
end Quietwire
