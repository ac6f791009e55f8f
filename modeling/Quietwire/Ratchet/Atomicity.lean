/-
  Quietwire.Ratchet.Atomicity

  A call that fails leaves its session as it was, wherever it fails and whatever
  the session, the frame and the RNG are; so failed `decrypt` calls can be
  deleted from any run.
-/
import Quietwire.Ratchet.Conversation

namespace Quietwire

open Transaction

variable {α σ : Type} [DecidableEq α] [Octet α] (P : Primitives α σ)

namespace Session

omit [DecidableEq α] in
theorem encrypt_atomic (random : Except CryptoError (Nonce α)) (plaintext : Plaintext α) :
    Atomic (encrypt P random plaintext : SessionM α σ (SealedFrame α)) :=
  (readOnly_orFailCrypto _).bind_atomic fun _ => encryptWith_atomic P _ _

theorem decrypt_atomic (sealed : SealedFrame α) (generated : Except CryptoError σ) :
    Atomic (decrypt P sealed generated : SessionM α σ (Plaintext α)) :=
  decryptWith_atomic P sealed generated

end Session

namespace World

omit [DecidableEq α] in
theorem encrypt_of_error {w : World α σ} {sender : Party}
    {random : Except CryptoError (Nonce α)} {plaintext : Plaintext α} {failure : Failure}
    {s : Session α σ}
    (h : Session.encrypt P random plaintext (w.session sender) = .error failure s) :
    w.encrypt P sender random plaintext = (w, .sealed (.error failure)) := by
  have hs := Session.encrypt_atomic P random plaintext _ _ _ h
  simp only [encrypt, h, hs, Function.update_eq_self]

theorem decrypt_of_error {w : World α σ} {receiver : Party} {sealed : SealedFrame α}
    {generated : Except CryptoError σ} {failure : Failure} {s : Session α σ}
    (h : Session.decrypt P sealed generated (w.session receiver) = .error failure s) :
    w.decrypt P receiver sealed generated = (w, .opened (.error failure)) := by
  have hs := Session.decrypt_atomic P sealed generated _ _ _ h
  simp only [decrypt, h, hs, Function.update_eq_self]

/-- A failed `decrypt` call changes nothing at all. -/
theorem step_of_failedDecrypt (w : World α σ) (event : Event α σ)
    (h : (w.step P event).2.isFailedDecrypt = true) : (w.step P event).1 = w := by
  cases event with
  | encrypt sender random plaintext =>
    simp only [step] at h
    cases hrun : Session.encrypt P random plaintext (w.session sender) with
    | ok sealed s => simp [encrypt, hrun, Output.isFailedDecrypt] at h
    | error failure s => simp [encrypt, hrun, Output.isFailedDecrypt] at h
  | decrypt receiver sealed generated =>
    cases hrun : Session.decrypt P sealed generated (w.session receiver) with
    | ok plaintext s => simp [step, decrypt, hrun, Output.isFailedDecrypt] at h
    | error failure s => rw [step, decrypt_of_error P hrun]

end World

/-- Failed operations leave the session exactly as it was, and deleting the failed
    `decrypt` calls of a run changes no other result of it. -/
theorem failed_operations_change_nothing :
    (∀ (s s' : Session α σ) (sealed : SealedFrame α) (generated : Except CryptoError σ)
        (failure : Failure),
      Session.decrypt P sealed generated s = .error failure s' → s' = s) ∧
    (∀ (s s' : Session α σ) (random : Except CryptoError (Nonce α)) (plaintext : Plaintext α)
        (failure : Failure),
      Session.encrypt P random plaintext s = .error failure s' → s' = s) ∧
    (∀ (w : World α σ) (events : List (Event α σ)),
      Machine.run (World.step P) w
          (Machine.prune (World.step P) Output.isFailedDecrypt w events) =
        ((Machine.run (World.step P) w events).1,
          (Machine.run (World.step P) w events).2.filter fun o => !o.isFailedDecrypt)) := by
  refine ⟨fun s s' sealed generated failure h => ?_, fun s s' random plaintext failure h => ?_,
    fun w events => ?_⟩
  · exact Session.decrypt_atomic P sealed generated s failure s' h
  · exact Session.encrypt_atomic P random plaintext s failure s' h
  · exact Machine.run_prune _ _ (World.step_of_failedDecrypt P) w events

end Quietwire
