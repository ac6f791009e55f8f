/-
  Quietwire.Ratchet.Eras

  The key schedule of a conversation as a function of the ratchet keys drawn so
  far.  Each new private ratchet key opens an era: it is combined with the
  newest key of the other party, and the root key and one sending chain of its
  owner come out.  An era is the list of private ratchet keys up to the one that
  opened it, newest first.

  Under free key derivation (`FreeKdf`) a message key tells the era and the
  number it belongs to.
-/
import Quietwire.Ratchet.Conversation
import Mathlib.Data.List.DropRight

namespace Quietwire

variable {α σ : Type} [Octet α] (P : Primitives α σ)

/-- Key derivation as free constructors: an output of `kdf_chain` or `kdf_root`
    determines its inputs, and outputs of different kinds differ. -/
structure FreeKdf : Prop where
  message_inj : ∀ k k' : Key α, (kdfChain P k).1 = (kdfChain P k').1 → k = k'
  chain_inj : ∀ k k' : Key α, (kdfChain P k).2 = (kdfChain P k').2 → k = k'
  root_inj : ∀ r s r' s' : SecretKey α,
    (expandRoot P r s).1 = (expandRoot P r' s').1 → r = r' ∧ s = s'
  start_inj : ∀ r s r' s' : SecretKey α,
    (expandRoot P r s).2 = (expandRoot P r' s').2 → r = r' ∧ s = s'
  message_ne_chain : ∀ k k' : Key α, (kdfChain P k).1 ≠ (kdfChain P k').2
  message_ne_root : ∀ (k : Key α) (r s : SecretKey α), (kdfChain P k).1 ≠ (expandRoot P r s).1
  message_ne_start : ∀ (k : Key α) (r s : SecretKey α), (kdfChain P k).1 ≠ (expandRoot P r s).2
  chain_ne_root : ∀ (k : Key α) (r s : SecretKey α), (kdfChain P k).2 ≠ (expandRoot P r s).1
  chain_ne_start : ∀ (k : Key α) (r s : SecretKey α), (kdfChain P k).2 ≠ (expandRoot P r s).2
  root_ne_start : ∀ r s r' s' : SecretKey α, (expandRoot P r s).1 ≠ (expandRoot P r' s').2

/-- The shared key is not itself a root key that `kdf_root` gives out. -/
def FreshSharedKey (sharedKey : SecretKey α) : Prop :=
  ∀ r s : SecretKey α, sharedKey ≠ (expandRoot P r s).1

/-! ## Root keys and start keys -/

/-- The root key of an era. -/
def rootKeyOf (sharedKey : SecretKey α) : List σ → SecretKey α
  | own :: remote :: era =>
    (expandRoot P (rootKeyOf sharedKey (remote :: era)) (P.x25519 own (publicKey P remote))).1
  | _ => sharedKey

/-- The key that the sending chain of an era starts from.  There is none before two
    ratchet keys have met. -/
def startKeyOf (sharedKey : SecretKey α) : List σ → Option (Key α)
  | own :: remote :: era =>
    some (expandRoot P (rootKeyOf P sharedKey (remote :: era))
      (P.x25519 own (publicKey P remote))).2
  | _ => none

/-- The key of the `n`-th message of an era's sending chain. -/
def messageKeyOf (sharedKey : SecretKey α) (era : List σ) (n : Nat) : Option (Key α) :=
  (startKeyOf P sharedKey era).map fun start => messageKeyAt P start n

theorem rootKeyOf_cons_cons (sharedKey : SecretKey α) (own remote : σ) (era : List σ) :
    rootKeyOf P sharedKey (own :: remote :: era) =
      (expandRoot P (rootKeyOf P sharedKey (remote :: era))
        (P.x25519 own (publicKey P remote))).1 := rfl

theorem rootKeyOf_of_length_le (sharedKey : SecretKey α) {era : List σ} (h : era.length ≤ 1) :
    rootKeyOf P sharedKey era = sharedKey := by
  match era with
  | [] => rfl
  | [_] => rfl

theorem startKeyOf_cons_cons (sharedKey : SecretKey α) (own remote : σ) (era : List σ) :
    startKeyOf P sharedKey (own :: remote :: era) =
      some (expandRoot P (rootKeyOf P sharedKey (remote :: era))
        (P.x25519 own (publicKey P remote))).2 := rfl

theorem startKeyOf_of_length_le (sharedKey : SecretKey α) {era : List σ} (h : era.length ≤ 1) :
    startKeyOf P sharedKey era = none := by
  match era with
  | [] => rfl
  | [_] => rfl

omit [Octet α] in
/-- Two ratchet keys have met in an era, or it is the start of the conversation. -/
theorem era_cases (era : List σ) :
    era.length ≤ 1 ∨ ∃ own remote rest, era = own :: remote :: rest := by
  match era with
  | [] => exact .inl (Nat.zero_le 1)
  | [_] => exact .inl (Nat.le_refl 1)
  | own :: remote :: rest => exact .inr ⟨own, remote, rest, rfl⟩

/-- A message key only exists in an era of at least two ratchet keys. -/
theorem messageKeyOf_eq_some {sharedKey : SecretKey α} {era : List σ} {n : Nat} {key : Key α}
    (h : messageKeyOf P sharedKey era n = some key) :
    ∃ own remote rest, era = own :: remote :: rest ∧
      key = messageKeyAt P (expandRoot P (rootKeyOf P sharedKey (remote :: rest))
        (P.x25519 own (publicKey P remote))).2 n := by
  unfold messageKeyOf at h
  rcases era_cases era with hshort | ⟨own, remote, rest, rfl⟩
  · rw [startKeyOf_of_length_le P _ hshort] at h
    cases h
  · rw [startKeyOf_cons_cons, Option.map_some, Option.some.injEq] at h
    exact ⟨own, remote, rest, rfl, h.symm⟩

section Free

variable {P}

/-- Chain keys at different positions, or of chains with different start keys, differ. -/
theorem FreeKdf.chainKeyAt_inj (free : FreeKdf P) {r s r' s' : SecretKey α} {n n' : Nat}
    (h : chainKeyAt P (expandRoot P r s).2 n = chainKeyAt P (expandRoot P r' s').2 n') :
    (r = r' ∧ s = s') ∧ n = n' := by
  induction n generalizing n' with
  | zero =>
    cases n' with
    | zero =>
      rw [chainKeyAt_zero, chainKeyAt_zero] at h
      exact ⟨free.start_inj _ _ _ _ h, rfl⟩
    | succ n' =>
      rw [chainKeyAt_zero, chainKeyAt_succ] at h
      exact absurd h.symm (free.chain_ne_start _ _ _)
  | succ n ih =>
    cases n' with
    | zero =>
      rw [chainKeyAt_zero, chainKeyAt_succ] at h
      exact absurd h (free.chain_ne_start _ _ _)
    | succ n' =>
      rw [chainKeyAt_succ, chainKeyAt_succ] at h
      obtain ⟨hinputs, rfl⟩ := ih (free.chain_inj _ _ h)
      exact ⟨hinputs, rfl⟩

theorem FreeKdf.messageKeyAt_inj (free : FreeKdf P) {r s r' s' : SecretKey α} {n n' : Nat}
    (h : messageKeyAt P (expandRoot P r s).2 n = messageKeyAt P (expandRoot P r' s').2 n') :
    (r = r' ∧ s = s') ∧ n = n' :=
  free.chainKeyAt_inj (free.message_inj _ _ h)

/-- A root key tells how many times `kdf_root` was applied to reach it. -/
theorem FreeKdf.rootKeyOf_length (free : FreeKdf P) {sharedKey : SecretKey α}
    (fresh : FreshSharedKey P sharedKey) {era era' : List σ}
    (h : rootKeyOf P sharedKey era = rootKeyOf P sharedKey era') :
    era.length - 1 = era'.length - 1 := by
  induction era generalizing era' with
  | nil =>
    have hnil : rootKeyOf P sharedKey ([] : List σ) = sharedKey := rfl
    rw [hnil] at h
    -- no output of the KDF is the shared key, so an era of no step meets none of one
    rcases era_cases era' with hshort | ⟨own, remote, rest, rfl⟩
    · simp only [List.length_nil]
      omega
    · rw [rootKeyOf_cons_cons] at h
      exact absurd h (fresh _ _)
  | cons own era ih =>
    rcases era_cases (own :: era) with hshort | ⟨own, remote, rest, heq⟩
    · rw [rootKeyOf_of_length_le P _ hshort] at h
      rcases era_cases era' with hshort' | ⟨own, remote, rest, rfl⟩
      · omega
      · rw [rootKeyOf_cons_cons] at h
        exact absurd h (fresh _ _)
    · cases heq
      rw [rootKeyOf_cons_cons] at h
      rcases era_cases era' with hshort' | ⟨own', remote', rest', rfl⟩
      · rw [rootKeyOf_of_length_le P _ hshort'] at h
        exact absurd h.symm (fresh _ _)
      · rw [rootKeyOf_cons_cons] at h
        -- two steps that come to the same root came from the same one
        have htail := ih (free.root_inj _ _ _ _ h).1
        simp only [List.length_cons, Nat.add_sub_cancel] at htail ⊢
        omega

/-- What a message key tells: the depth of its era, and its number. -/
theorem FreeKdf.messageKeyOf_inj (free : FreeKdf P) {sharedKey : SecretKey α}
    (fresh : FreshSharedKey P sharedKey) {era era' : List σ} {n n' : Nat} {key : Key α}
    (h : messageKeyOf P sharedKey era n = some key)
    (h' : messageKeyOf P sharedKey era' n' = some key) :
    era.length = era'.length ∧ n = n' := by
  obtain ⟨own, remote, rest, rfl, hkey⟩ := messageKeyOf_eq_some P h
  obtain ⟨own', remote', rest', rfl, hkey'⟩ := messageKeyOf_eq_some P h'
  obtain ⟨⟨hroot, -⟩, hnumber⟩ := free.messageKeyAt_inj (hkey.symm.trans hkey')
  have hlen := free.rootKeyOf_length fresh hroot
  simp only [List.length_cons, Nat.add_sub_cancel] at hlen ⊢
  exact ⟨by omega, hnumber⟩

end Free

/-! ## The eras of a party -/

/-- How many ratchet keys of both parties have been drawn when a party starts its
    sending chain number `chain`.  The initiator draws its first key in addition to the
    responder's signed prekey, and from then on the parties alternate. -/
def Party.eraLen : Party → Nat → Nat
  | .initiator, chain => 2 * chain
  | .responder, chain => 2 * chain + 1

theorem Party.eraLen_inj {x y : Party} {c d : Nat} (h : x.eraLen c = y.eraLen d) :
    x = y ∧ c = d := by
  cases x <;> cases y <;> simp only [Party.eraLen] at h <;> first | omega | exact ⟨rfl, by omega⟩

namespace World

/-- The era of a party's sending chain number `chain`. -/
def eraOf (w : World α σ) (x : Party) (chain : Nat) : List σ :=
  w.ratchets.rtake (x.eraLen chain)

omit [Octet α] in
theorem length_eraOf (w : World α σ) (x : Party) (chain : Nat) :
    (w.eraOf x chain).length = min (x.eraLen chain) w.ratchets.length := by
  rw [eraOf, List.rtake, List.length_drop]
  omega

end World

section Suffixes

variable {β : Type}

/-- A new head does not change the last `n` elements of a list that has them. -/
theorem rtake_cons_of_le (b : β) (l : List β) (n : Nat) (h : n ≤ l.length) :
    (b :: l).rtake n = l.rtake n := by
  rw [List.rtake, List.rtake, List.length_cons, Nat.sub_add_comm h, List.drop_succ_cons]

theorem rtake_of_length_le (l : List β) (n : Nat) (h : l.length ≤ n) : l.rtake n = l := by
  rw [List.rtake, Nat.sub_eq_zero_of_le h, List.drop_zero]

end Suffixes

end Quietwire
