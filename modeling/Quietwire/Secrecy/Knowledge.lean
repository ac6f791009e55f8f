/-
  Quietwire.Secrecy.Knowledge

  What an attacker knows that has read a session's memory and every frame on the
  wire, and what it takes for a guard to leave all of it unmarked.
-/
import Quietwire.Secrecy.Attacker
import Quietwire.Ratchet.Deliverable

namespace Quietwire

variable {α σ : Type}

/-- Everything that a session holds. -/
inductive Session.Holds (s : Session α σ) : Term α σ → Prop
  | rootKey : Holds s (.bytes s.rootKey)
  | ownRatchet : Holds s (.scalar s.ownRatchet)
  | remoteRatchet {remote : PublicKey α} (h : s.remoteRatchet = some remote) :
      Holds s (.bytes remote)
  | sending {chain : Chain α} (h : s.sending = some chain) : Holds s (.bytes chain.key)
  | receiving {chain : Chain α} (h : s.receiving = some chain) : Holds s (.bytes chain.key)
  | skippedKey {entry : SkippedKey α} (h : entry ∈ s.skipped) : Holds s (.bytes entry.key)
  | skippedRatchet {entry : SkippedKey α} (h : entry ∈ s.skipped) :
      Holds s (.bytes entry.ratchet)

variable [Octet α] (P : Primitives α σ) (sharedKey : SecretKey α)

/-- A value that an attacker brings along: a string or a private key of its own making. -/
def Outside (ratchets : List σ) : Term α σ → Prop
  | .bytes key => Atomic P key ∧ key ≠ sharedKey
  | .scalar own => own ∉ ratchets
  | .frame _ => False

/-- The memory of a session, every frame ever sent, and values of the attacker's own. -/
def knowledge (s : Session α σ) (w : World α σ) (own : Set (Term α σ)) : Set (Term α σ) :=
  {t | s.Holds t ∨ (∃ sealing ∈ w.sealings, t = .frame sealing.sealed) ∨ t ∈ own}

/-- A guard marks nothing that `x` holds in `w`. -/
structure Guard.Spares (g : Guard σ) (w : World α σ) (x : Party) : Prop where
  root : ∀ era, g.root era → era.length - 1 ≠ x.eraLen (w.sendingChain x) - 1
  sending : ∀ era, g.chain era (w.sentIn x (w.sendingChain x)).length →
    era.length ≠ x.eraLen (w.sendingChain x)
  receiving : ∀ era, g.chain era (w.received x) →
    era.length + 1 ≠ x.eraLen (w.sendingChain x)
  stored : ∀ entry ∈ (w.session x).skipped, ∀ era n, g.message era n →
    messageKeyOf P sharedKey era n ≠ some entry.key
  scalar : ∀ a b, g.agreed a b → (w.session x).ownRatchet ≠ a ∧ (w.session x).ownRatchet ≠ b

variable {P sharedKey} {naming : Naming} {w : World α σ} {x : Party} {g : Guard σ}

section Free

variable (h : World.Lockstep P sharedKey naming w) (free : FreeKdf P)
  (agreement : FreeAgreement P) (fresh : FreshSecret P sharedKey) (closed : g.Closed)

include h free agreement fresh closed

/-- Nothing that a session holds is guarded. -/
theorem World.Lockstep.not_guarded_held (spares : g.Spares P sharedKey w x) {t : Term α σ}
    (ht : (w.session x).Holds t) : ¬ Guarded P sharedKey g t := by
  intro hguarded
  have hsynced := h.synced x
  cases ht with
  | rootKey =>
    -- each secret the session holds is of its own place in the schedule, which is spared
    rw [Guarded, hsynced.rootKey] at hguarded
    obtain ⟨era, hroot, hlen⟩ := hguarded.root_of agreement fresh free
    rw [h.length_era (Nat.le_refl _)] at hlen
    exact spares.root era hroot hlen
  | ownRatchet =>
    obtain ⟨a, b, hagreed, hown⟩ := hguarded
    obtain ⟨ha, hb⟩ := spares.scalar a b hagreed
    exact hown.elim ha hb
  | remoteRatchet hremote =>
    rw [hsynced.remote, Option.map_eq_some_iff] at hremote
    obtain ⟨own, -, rfl⟩ := hremote
    exact not_guarded_publicKey agreement fresh closed own hguarded
  | sending hsending =>
    obtain ⟨start, hstart, rfl⟩ := h.sending_eq hsending
    obtain ⟨era, hchain, hlen⟩ := GuardedKey.chain_of agreement fresh free hstart hguarded
    rw [h.length_era (Nat.le_refl _)] at hlen
    exact spares.sending era hchain hlen
  | receiving hreceiving =>
    obtain ⟨start, hstart, rfl, -⟩ := h.receiving_eq hreceiving
    obtain ⟨era, hchain, hlen⟩ := GuardedKey.chain_of agreement fresh free hstart hguarded
    rw [h.length_era (h.steps_le x).1] at hlen
    exact spares.receiving era hchain (by rw [w.eraLen_sendingChain, hlen])
  | skippedKey hentry =>
    -- a stored key is the key of a frame that was sealed
    obtain ⟨s, hstored, -⟩ := h.stored x _ hentry
    have hkey := (h.genuine s hstored.1).key
    rw [hstored.2.2.1] at hkey
    obtain ⟨era, hmessage, hkey', -⟩ :=
      GuardedKey.message_of agreement fresh free hkey.symm hguarded
    exact spares.stored _ hentry era _ hmessage hkey'
  | skippedRatchet hentry =>
    obtain ⟨s, hstored, -⟩ := h.stored x _ hentry
    obtain ⟨own, hown⟩ := h.exists_publicKey hstored.1
    rw [Guarded, ← hstored.2.2.2.1, hown] at hguarded
    exact not_guarded_publicKey agreement fresh closed own hguarded

/-- No guarded term follows from a session that the guard spares, the frames on the wire at
    a later time, and values of the attacker's own. -/
theorem World.Lockstep.not_derives (spares : g.Spares P sharedKey w x) {w' : World α σ}
    (h' : World.Lockstep P sharedKey naming w')
    (hagreed : ∀ a b, g.agreed a b → a ∈ w'.ratchets ∧ b ∈ w'.ratchets)
    {own : Set (Term α σ)} (hown : ∀ t ∈ own, Outside P sharedKey w'.ratchets t) {t : Term α σ}
    (ht : Derives (Computes P) (knowledge (w.session x) w' own) t) : ¬ Guarded P sharedKey g t := by
  refine ht.not_guarded (guarding agreement fresh free closed) ?_
  intro t hknown
  rcases hknown with hheld | ⟨s, hs, rfl⟩ | hmem
  · exact h.not_guarded_held free agreement fresh closed spares hheld
  · obtain ⟨ratchet, hratchet⟩ := h'.exists_publicKey hs
    show ¬ GuardedKey P sharedKey g s.header.ratchet
    rw [hratchet]
    exact not_guarded_publicKey agreement fresh closed ratchet
  · have houtside := hown t hmem
    cases t with
    | bytes key => exact not_guarded_atomic closed houtside.1 houtside.2
    | scalar a =>
      rintro ⟨b, c, hguard, rfl | rfl⟩
      · exact houtside (hagreed _ _ hguard).1
      · exact houtside (hagreed _ _ hguard).2
    | frame sealed => exact houtside.elim

end Free

end Quietwire
