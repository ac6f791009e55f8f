/-
  Quietwire.Symbolic.Rounds

  The attacker's side of the symbolic primitives, and conversations in which the
  parties take turns.
-/
import Quietwire.Ratchet.Continuation
import Quietwire.Secrecy.Attacker

namespace Quietwire
namespace Symbolic

/-! ## Agreement as a free constructor -/

theorem output_eq (d : Derivation Letter) : ∃ second key message,
    d.output primitives = padded 32 (.mac second key message) := by
  cases d with
  | messageKey key =>
    rw [Derivation.output, kdfChain_eq]
    exact ⟨_, _, _, rfl⟩
  | chainKey key =>
    rw [Derivation.output, kdfChain_eq]
    exact ⟨_, _, _, rfl⟩
  | rootKey root shared =>
    rw [Derivation.output, expandRoot_eq]
    exact ⟨_, _, _, rfl⟩
  | startKey root shared =>
    rw [Derivation.output, expandRoot_eq]
    exact ⟨_, _, _, rfl⟩

theorem x25519_eq (own : Nat) (point : Vector Letter 32) : ∃ base exponents,
    primitives.x25519 own point = padded 32 (.point base exponents) := by
  rcases x25519_cases own point with ⟨base, exponents, -, hx⟩ | hx
  · exact ⟨_, _, hx⟩
  · exact ⟨_, _, hx⟩

/-- A string that starts with a machine byte is atomic. -/
theorem atomic_of_byte {key : Vector Letter 32} {b : UInt8} (hbyte : key.head = .byte b) :
    Atomic primitives key where
  ne_output d hd := by
    obtain ⟨second, k, message, heq⟩ := output_eq d
    rw [hd, heq, padded_head] at hbyte
    cases hbyte
  ne_shared own point hd := by
    obtain ⟨base, exponents, heq⟩ := x25519_eq own point
    rw [hd, heq, padded_head] at hbyte
    cases hbyte

theorem basepoint_first : (basepointBytes : Vector Letter 32).head = .byte 9 := by
  simp [basepointBytes, Octet.ofByte, Vector.head]

theorem sharedKey_first : sharedKey.head = .byte 7 := by
  simp [sharedKey, Vector.head]

theorem agreement : FreeAgreement primitives where
  shared_inj _ _ _ _ h := x25519_free h
  shared_ne_output own point d h := by
    obtain ⟨base, exponents, hpoint⟩ := x25519_eq own point
    obtain ⟨second, key, message, houtput⟩ := output_eq d
    rw [hpoint, houtput, padded_inj (by decide)] at h
    cases h
  basepoint_atomic := atomic_of_byte basepoint_first

theorem freshSecret : FreshSecret primitives sharedKey where
  atomic := atomic_of_byte sharedKey_first
  ne_basepoint h := by
    have hfirst := congrArg Vector.head h
    rw [sharedKey_first, basepoint_first] at hfirst
    cases hfirst

/-! ## Rounds -/

variable {w : World Letter Nat}

/-- Nobody is deaf in a short conversation. -/
theorem not_deaf (hlog : w.log.length ≤ 1000) (x : Party) : ¬ w.Deaf x := by
  have hsent : ∀ chain, (w.sentIn x.peer chain).length ≤ w.log.length := fun chain =>
    (List.length_filter_le _ _).trans (List.length_filterMap_le _ _)
  have hcurrent := hsent (w.steps x)
  have hnext := hsent (w.steps x + 1)
  rw [World.Deaf]
  omega

/-- A conversation in which the party that is ahead now seals a frame, and its peer opens it
    and draws the key `fresh`. -/
structure Round (w : World Letter Nat) (fresh : Nat) (v : World Letter Nat) : Prop where
  reaches : World.Reaches primitives w v
  lockstep : World.Lockstep primitives sharedKey .byLabel v
  ratchets : v.ratchets = fresh :: w.ratchets
  steps : v.steps w.ahead.peer = w.steps w.ahead.peer + 1
  ahead : v.ahead = w.ahead.peer
  log : ∃ s o, v.log = .opened o :: .sealed s :: w.log ∧ s.sender = w.ahead ∧
    o.receiver = w.ahead.peer ∧ s.sealed = o.sealed

theorem exists_round (h : World.Lockstep primitives sharedKey .byLabel w) {fresh : Nat}
    (hnodup : (fresh :: w.ratchets).Nodup) (hlog : w.log.length ≤ 1000) :
    ∃ v, Round w fresh v := by
  have hdistinct : ∀ {l : List Nat}, l.Nodup → (l.map (publicKey primitives)).Nodup :=
    fun hl => hl.map fun _ _ heq => publicKey_inj.mp heq
  have hbefore := hdistinct (List.nodup_cons.mp hnodup).2
  let t : Turn Letter Nat := ⟨w.ahead, nonce, plaintext, fresh⟩
  obtain ⟨s, sealing, s', o, hturn, hsealing, -, ho, hown⟩ :=
    h.turn_ahead correct total hbefore t rfl (not_deaf hlog _)
  obtain ⟨-, hnext⟩ := h.steps_ahead
  -- the turn is a sealing and the ratchet step that answers it
  have hsteps : (w.turn primitives t).steps w.ahead.peer = w.steps w.ahead.peer + 1 := by
    rw [hturn, ← ho, World.steps_recordStep_self, World.steps_recordSealing]
  have hother : (w.turn primitives t).steps w.ahead = w.steps w.ahead := by
    rw [hturn, World.steps_recordStep_of_ne _ _ _ (by rw [ho]; exact Party.ne_peer _),
      World.steps_recordSealing]
  have hratchets : (w.turn primitives t).ratchets = fresh :: w.ratchets := by
    rw [hturn, World.ratchets_recordStep, hown, World.ratchets_recordSealing]
  have hsent : (w.sentIn w.ahead (w.sendingChain w.ahead)).length ≤ w.log.length :=
    (List.length_filter_le _ _).trans (List.length_filterMap_le _ _)
  refine ⟨w.turn primitives t, turn_reaches h t, ?_, hratchets, hsteps, ?_, ?_⟩
  · refine h.after_turn correct t ?_
    rw [hratchets]
    exact hdistinct hnodup
  · -- the party that was behind has caught up by one step
    have hturnOf := h.turn
    unfold World.ahead at hsteps hother ⊢
    split at hsteps
    · next heq =>
      rw [if_pos heq] at hother ⊢
      simp only [Party.peer] at hsteps ⊢
      rw [if_neg (by omega)]
    · next hne =>
      rw [if_neg hne] at hother ⊢
      simp only [Party.peer] at hsteps ⊢
      rw [if_pos (by omega)]
  · exact h.turn_log correct total hbefore t
      (by show 1 ≤ w.sendingChain w.ahead; omega)
      (by show (w.sentIn w.ahead (w.sendingChain w.ahead)).length < 2000; omega)
      (not_deaf hlog _)

end Symbolic
end Quietwire
