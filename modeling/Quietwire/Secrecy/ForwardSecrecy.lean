/-
  Quietwire.Secrecy.ForwardSecrecy

  A session's memory gives no message key of a frame that it has sealed or
  opened: the positions its chains have left, and the eras before them, stay
  behind one-way derivations.
-/
import Quietwire.Secrecy.Knowledge
import Quietwire.Symbolic.Rounds

namespace Quietwire

variable {α σ : Type} [Octet α] {P : Primitives α σ} {sharedKey : SecretKey α}

namespace World

/-- The position `n` in an era with `len` ratchet keys is behind what `x` has left: its
    sending chain has moved past it, its receiving chain has, or the era is older. -/
def Past (w : World α σ) (x : Party) (len n : Nat) : Prop :=
  (len = x.eraLen (w.sendingChain x) ∧ n < (w.sentIn x (w.sendingChain x)).length) ∨
    (len + 1 = x.eraLen (w.sendingChain x) ∧ n < w.received x) ∨
    len + 1 < x.eraLen (w.sendingChain x)

/-- What `x` has deleted: the root keys of older eras, the chain keys of past positions, and
    the message keys of past positions that are not stored. -/
def pastGuard (P : Primitives α σ) (sharedKey : SecretKey α) (w : World α σ) (x : Party) :
    Guard σ where
  root era := 1 ≤ era.length ∧ era.length < x.eraLen (w.sendingChain x)
  chain era n := w.Past x era.length n
  message era n := w.Past x era.length n ∧
    ∀ entry ∈ (w.session x).skipped, messageKeyOf P sharedKey era n ≠ some entry.key
  agreed _ _ := False

variable {w : World α σ} {x : Party}

theorem pastGuard_closed : (pastGuard P sharedKey w x).Closed where
  message _ _ h := h.1
  chain era n h := by
    -- a chain leaves its positions in order
    simp only [pastGuard, Past] at h ⊢
    omega
  start own remote era h := by
    simp only [pastGuard, Past, List.length_cons] at h ⊢
    left
    omega
  root own remote era h := by
    simp only [pastGuard, List.length_cons] at h ⊢
    left
    omega

theorem pastGuard_spares : (pastGuard P sharedKey w x).Spares P sharedKey w x where
  root era h := by
    simp only [pastGuard] at h
    omega
  sending era h := by
    simp only [pastGuard, Past] at h
    omega
  receiving era h := by
    simp only [pastGuard, Past] at h
    omega
  stored entry hentry era n h := h.2 entry hentry
  scalar _ _ h := h.elim

variable (h : Lockstep P sharedKey .byKey w)

include h

/-- The frames that `x` sealed are past. -/
theorem Lockstep.past_of_sealed {s : Sealing α} (hs : s ∈ w.sealings) (hsender : s.sender = x) :
    w.Past x (w.eraOf s.sender s.chain).length s.number := by
  subst hsender
  have hle := (h.genuine s hs).chain_le
  rw [h.length_era hle]
  rcases Nat.lt_or_ge s.chain (w.sendingChain s.sender) with hlt | hge
  · right; right
    cases hsender : s.sender <;> simp only [hsender, Party.eraLen] at hlt ⊢ <;> omega
  · have hchain : s.chain = w.sendingChain s.sender := Nat.le_antisymm hle hge
    left
    exact ⟨by rw [hchain], h.number_lt (mem_sentIn.mpr ⟨hs, rfl, hchain⟩)⟩

/-- The frames that the receiving chain of `x` has passed are past. -/
theorem Lockstep.past_of_passed {s : Sealing α} (hs : s ∈ w.sealings)
    (hsender : s.sender = x.peer) (hpassed : w.Passed x s) :
    w.Past x (w.eraOf s.sender s.chain).length s.number := by
  have hle := (h.genuine s hs).chain_le
  have hlen := w.eraLen_sendingChain x
  rw [h.length_era hle, hsender]
  rcases hpassed with hlt | ⟨hchain, hlt⟩
  · right; right
    have hshort : x.peer.eraLen s.chain < x.peer.eraLen (w.steps x) := by
      cases x <;> simp only [Party.eraLen, Party.peer] <;> omega
    omega
  · right; left
    rw [hchain, hlen]
    exact ⟨rfl, hlt⟩

variable (free : FreeKdf P) (fresh : FreshSharedKey P sharedKey)

include free fresh

omit h free fresh in
/-- The key of a past frame that is not stored is guarded. -/
theorem Genuine.guarded {s : Sealing α} (hs : Genuine P sharedKey w s)
    (hpast : w.Past x (w.eraOf s.sender s.chain).length s.number)
    (hunstored : ∀ entry ∈ (w.session x).skipped, s.key ≠ some entry.key) {key : Key α}
    (hkey : s.key = some key) : Guarded P sharedKey (pastGuard P sharedKey w x) (.bytes key) := by
  have hkeyOf := hs.key
  rw [hkey] at hkeyOf
  refine GuardedKey.message hkeyOf.symm ⟨hpast, ?_⟩
  rw [← hkeyOf, ← hkey]
  exact hunstored

/-- The key of a frame that `x` sealed is guarded. -/
theorem Lockstep.guarded_of_sealed {s : Sealing α} (hs : s ∈ w.sealings) (hsender : s.sender = x)
    {key : Key α} (hkey : s.key = some key) :
    Guarded P sharedKey (pastGuard P sharedKey w x) (.bytes key) := by
  refine (h.genuine s hs).guarded (h.past_of_sealed hs hsender) ?_ hkey
  intro entry hentry heq
  -- a stored key belongs to a frame of the peer
  obtain ⟨t, hstored, -⟩ := h.stored x entry hentry
  obtain rfl := h.sealing_unique free fresh hs hstored.1 (heq.trans hstored.2.2.1.symm)
  exact Party.ne_peer x (hsender.symm.trans hstored.2.1)

omit free fresh in
/-- The key of a frame that `x` opened is guarded. -/
theorem Lockstep.guarded_of_opened {o : Opening α} (ho : o ∈ w.openedBy x) {key : Key α}
    (hkey : o.key = some key) : Guarded P sharedKey (pastGuard P sharedKey w x) (.bytes key) := by
  obtain ⟨s, hs, hsender, hsKey, -, -, hpassed⟩ := h.opened x o ho
  refine (h.genuine s hs).guarded (h.past_of_passed hs hsender hpassed) ?_ (hsKey.trans hkey)
  intro entry hentry heq
  -- the key of an opened frame has left the store
  obtain ⟨t, -, -, hunopened⟩ := h.stored x entry hentry
  refine hunopened (List.mem_map.mpr ⟨o, ho, ?_⟩)
  rw [Naming.ofOpening, Naming.ofEntry, ← hsKey, heq]

end World

/-- Forward secrecy of the stored state.  From the memory of a session, in any state that a
    conversation reaches, and from all frames on the wire, an attacker with values of its own
    derives the message key of no frame that the session has sealed or opened. -/
theorem forward_secrecy [DecidableEq α] {signedPrekey ownRatchet : σ} {w₀ w : World α σ}
    (free : FreeKdf P) (agreement : FreeAgreement P) (fresh : FreshSecret P sharedKey)
    (hstart : World.start P sharedKey signedPrekey ownRatchet = .ok w₀)
    (hreaches : World.Reaches P w₀ w) (x : Party) (own : Set (Term α σ))
    (hown : ∀ t ∈ own, Outside P sharedKey w.ratchets t) :
    (∀ s ∈ w.sealings, s.sender = x → ∃ key, s.key = some key ∧
      ¬ Derives (Computes P) (knowledge (w.session x) w own) (.bytes key)) ∧
    ∀ o ∈ w.openedBy x, ∃ key, o.key = some key ∧
      ¬ Derives (Computes P) (knowledge (w.session x) w own) (.bytes key) := by
  have h : World.Lockstep P sharedKey .byKey w :=
    World.Lockstep.reaches free fresh.sharedKey hreaches (World.Lockstep.start hstart)
  -- the keys behind the session are guarded, and nothing it holds is
  have hsecret : ∀ {t : Term α σ}, Guarded P sharedKey (World.pastGuard P sharedKey w x) t →
      ¬ Derives (Computes P) (knowledge (w.session x) w own) t := by
    intro t hguarded ht
    exact h.not_derives free agreement fresh World.pastGuard_closed World.pastGuard_spares h
      (fun _ _ hagreed => hagreed.elim) hown ht hguarded
  constructor
  · intro s hs hsender
    obtain ⟨key, hkey, -⟩ := (h.genuine s hs).sealing
    exact ⟨key, hkey, hsecret (h.guarded_of_sealed free fresh.sharedKey hs hsender hkey)⟩
  · intro o ho
    -- an opened frame was sealed under the key that opened it
    obtain ⟨s, hs, -, hsKey, -⟩ := h.opened x o ho
    obtain ⟨key, hkey, -⟩ := (h.genuine s hs).sealing
    rw [hsKey] at hkey
    exact ⟨key, hkey, hsecret (h.guarded_of_opened ho hkey)⟩

/-- The responder has opened a frame; its memory and a private key of the attacker's own do not
    give the key. -/
theorem forward_secrecy_symbolic : ∃ (w : World Symbolic.Letter Nat) (o : Opening Symbolic.Letter),
    o ∈ w.openedBy .responder ∧ ∃ key, o.key = some key ∧ ¬ Derives (Computes Symbolic.primitives)
      (knowledge (w.session .responder) w {.scalar 9}) (.bytes key) := by
  obtain ⟨w₀, hstart, -, hratchets, hsteps, hlog⟩ :=
    Symbolic.exists_start Symbolic.sharedKey
  have h₀ : World.Lockstep Symbolic.primitives Symbolic.sharedKey .byLabel w₀ :=
    World.Lockstep.start hstart
  have hahead : w₀.ahead = .initiator := by
    rw [World.ahead, hsteps, if_pos rfl]
  obtain ⟨w, round⟩ : ∃ w, Symbolic.Round w₀ 3 w :=
    Symbolic.exists_round h₀ (by rw [hratchets]; decide) (by rw [hlog]; exact Nat.zero_le _)
  obtain ⟨s, o, hlog', -, ho, -⟩ := round.log
  have hopened : o ∈ w.openedBy .responder := by
    rw [World.mem_openedBy, hlog', ho, hahead]
    exact ⟨List.mem_cons_self, rfl⟩
  have hown : ∀ t ∈ ({.scalar 9} : Set (Term Symbolic.Letter Nat)),
      Outside Symbolic.primitives Symbolic.sharedKey w.ratchets t := by
    rintro t rfl
    show 9 ∉ w.ratchets
    rw [round.ratchets, hratchets]
    decide
  have hsecret := forward_secrecy Symbolic.free Symbolic.agreement Symbolic.freshSecret hstart
    round.reaches .responder {.scalar 9} hown
  exact ⟨w, o, hopened, hsecret.2 o hopened⟩

end Quietwire
