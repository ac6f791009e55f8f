/-
  Quietwire.Ratchet.Ahead

  Which of the two parties is ahead: its newest sending chain is one that the
  other may not have seen yet, and one more `kdf_root` takes the other there.
-/
import Quietwire.Ratchet.Reachable

namespace Quietwire

variable {α σ : Type} [DecidableEq α] [Octet α] {P : Primitives α σ} {sharedKey : SecretKey α}
  {naming : Naming}

namespace World

omit [DecidableEq α] [Octet α] in
/-- The party whose newest sending chain the other may not have seen: the initiator when
    both took the same number of steps, else the responder. -/
def ahead (w : World α σ) : Party :=
  if w.steps .responder = w.steps .initiator then .initiator else .responder

namespace Lockstep

variable {w : World α σ} (h : Lockstep P sharedKey naming w)

include h

omit [DecidableEq α] in
/-- The party ahead has seen all the chains of the other, which has one to see. -/
theorem steps_ahead : w.steps w.ahead = w.sendingChain w.ahead.peer ∧
    w.sendingChain w.ahead = w.steps w.ahead.peer + 1 := by
  have hturn := h.turn
  unfold ahead
  split
  · simp only [Party.peer, sendingChain]
    omega
  · simp only [Party.peer, sendingChain]
    omega

omit [DecidableEq α] in
/-- The newest ratchet key is of the party ahead, the one before of the other. -/
theorem ratchets_eq :
    w.ratchets = (w.session w.ahead).ownRatchet :: w.eraOf w.ahead.peer
      (w.sendingChain w.ahead.peer) ∧
    w.eraOf w.ahead.peer (w.sendingChain w.ahead.peer)
      = (w.session w.ahead.peer).ownRatchet :: w.eraOf w.ahead (w.steps w.ahead.peer) := by
  obtain ⟨hsteps, hnext⟩ := h.steps_ahead
  have hnewest : w.eraOf w.ahead (w.sendingChain w.ahead) = w.ratchets := by
    rw [hnext]
    have hera := h.eraOf_next (x := w.ahead.peer) (by rw [Party.peer_peer]; exact hnext)
    rw [Party.peer_peer] at hera
    exact hera
  have hahead := (h.synced w.ahead).era
  have hbehind := (h.synced w.ahead.peer).era
  rw [hnewest, hsteps] at hahead
  rw [Party.peer_peer] at hbehind
  exact ⟨hahead, hbehind⟩

omit [DecidableEq α] in
/-- The party ahead has the newest root key and start key. -/
theorem newest_ahead : w.eraOf w.ahead (w.sendingChain w.ahead) = w.ratchets := by
  rw [(h.synced w.ahead).era, h.steps_ahead.1, ← h.ratchets_eq.1]

omit [DecidableEq α] in
/-- All ratchet keys drawn, the two newest in front. -/
theorem ratchets_eq_cons_cons :
    w.ratchets = (w.session w.ahead).ownRatchet :: (w.session w.ahead.peer).ownRatchet ::
      w.eraOf w.ahead (w.steps w.ahead.peer) := by
  rw [h.ratchets_eq.1, h.ratchets_eq.2]

/-- One more `kdf_root` takes the party behind to the newest root key and start key. -/
theorem kdfRoot_behind
    (hcommute : ∀ a b, P.x25519 a (publicKey P b) = P.x25519 b (publicKey P a)) :
    ∃ start, startKeyOf P sharedKey w.ratchets = some start ∧
      kdfRoot P (w.session w.ahead.peer).rootKey (w.session w.ahead.peer).ownRatchet
          (publicKey P (w.session w.ahead).ownRatchet)
        = .ok (rootKeyOf P sharedKey w.ratchets, start) := by
  have hall := h.ratchets_eq_cons_cons
  have hera := h.ratchets_eq.2
  have hbehind := (h.synced w.ahead.peer).rootKey
  rw [hera] at hbehind
  refine ⟨(expandRoot P (w.session w.ahead.peer).rootKey (P.x25519 (w.session w.ahead).ownRatchet
    (publicKey P (w.session w.ahead.peer).ownRatchet))).2, ?_, ?_⟩
  · rw [hall, startKeyOf_cons_cons, ← hbehind]
  · rw [kdfRoot_eq_ok_iff, hcommute]
    refine ⟨h.contributory _ _ _ hall, ?_, rfl⟩
    rw [hall, rootKeyOf_cons_cons, ← hbehind]

omit [DecidableEq α] in
/-- The party that has a chain of its peer to see is the one behind. -/
theorem ahead_eq {x : Party}
    (hnext : w.sendingChain x.peer = w.steps x + 1) : w.ahead = x.peer := by
  rcases Party.eq_or_eq_peer x w.ahead with heq | heq
  · have hsteps := h.steps_ahead.1
    rw [heq] at hsteps
    omega
  · exact heq

end Lockstep
end World

end Quietwire
