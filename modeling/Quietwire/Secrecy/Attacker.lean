/-
  Quietwire.Secrecy.Attacker

  A symbolic attacker on the key schedule: the terms it holds, the computations
  it can make, and when a part of the key schedule stays out of its reach.

  A `Guard` marks keys of the schedule.  It is closed when every marked key was
  computed from another marked key or from an agreement between two private
  ratchet keys that the attacker lacks; then the marked keys cannot be derived
  from unmarked ones.
-/
import Quietwire.Support.Derivation
import Quietwire.Ratchet.Eras

namespace Quietwire

/-- A string of the length of a key, a private ratchet key, or a frame. -/
inductive Term (α σ : Type) where
  | bytes (key : Vector α keyLen)
  | scalar (own : σ)
  | frame (sealed : SealedFrame α)

/-- An application of `kdf_chain` or of the expansion in `kdf_root`, and which of its two
    outputs is meant. -/
inductive Derivation (α : Type) where
  | messageKey (chainKey : Key α)
  | chainKey (chainKey : Key α)
  | rootKey (rootKey shared : SecretKey α)
  | startKey (rootKey shared : SecretKey α)

def Derivation.inputs {α : Type} : Derivation α → List (Vector α keyLen)
  | messageKey key => [key]
  | chainKey key => [key]
  | rootKey root shared => [root, shared]
  | startKey root shared => [root, shared]

variable {α σ : Type} [Octet α] (P : Primitives α σ)

def Derivation.output : Derivation α → Vector α keyLen
  | messageKey key => (kdfChain P key).1
  | chainKey key => (kdfChain P key).2
  | rootKey root shared => (expandRoot P root shared).1
  | startKey root shared => (expandRoot P root shared).2

/-- What the attacker can compute from terms that it holds. -/
inductive Computes : List (Term α σ) → Term α σ → Prop
  | derive (d : Derivation α) : Computes (d.inputs.map .bytes) (.bytes (d.output P))
  | basepoint : Computes [] (.bytes basepointBytes)
  | agree (own : σ) (point : Vector α keyLen) :
      Computes [.scalar own, .bytes point] (.bytes (P.x25519 own point))
  | header (sealed : SealedFrame α) :
      Computes [.frame sealed] (.bytes (Header.parse sealed.frame).ratchet)

/-- A string that no key derivation and no agreement gives out. -/
structure Atomic (key : Vector α keyLen) : Prop where
  ne_output : ∀ d : Derivation α, key ≠ d.output P
  ne_shared : ∀ (own : σ) (point : Vector α keyLen), key ≠ P.x25519 own point

/-- Diffie-Hellman as a free commuting constructor: a shared secret tells the two private
    keys, and it is not an output of key derivation. -/
structure FreeAgreement : Prop where
  shared_inj : ∀ (a b c : σ) (point : Vector α keyLen),
    P.x25519 a point = P.x25519 b (publicKey P c) →
      a = b ∧ point = publicKey P c ∨ a = c ∧ point = publicKey P b
  shared_ne_output : ∀ (own : σ) (point : Vector α keyLen) (d : Derivation α),
    P.x25519 own point ≠ d.output P
  basepoint_atomic : Atomic P basepointBytes

/-- A secret that is not computed from anything else. -/
structure FreshSecret (key : SecretKey α) : Prop where
  atomic : Atomic P key
  ne_basepoint : key ≠ basepointBytes

variable {P}

theorem FreshSecret.sharedKey {sharedKey : SecretKey α} (fresh : FreshSecret P sharedKey) :
    FreshSharedKey P sharedKey :=
  fun root shared => fresh.atomic.ne_output (.rootKey root shared)

/-- An output of key derivation tells which application it comes from. -/
theorem FreeKdf.output_inj (free : FreeKdf P) {d d' : Derivation α}
    (h : d.output P = d'.output P) : d = d' := by
  -- the infos and labels keep the four outputs apart
  cases d with
  | messageKey key =>
    cases d' with
    | messageKey key' => rw [free.message_inj key key' h]
    | chainKey key' => exact absurd h (free.message_ne_chain _ _)
    | rootKey root shared => exact absurd h (free.message_ne_root _ _ _)
    | startKey root shared => exact absurd h (free.message_ne_start _ _ _)
  | chainKey key =>
    cases d' with
    | messageKey key' => exact absurd h.symm (free.message_ne_chain _ _)
    | chainKey key' => rw [free.chain_inj key key' h]
    | rootKey root shared => exact absurd h (free.chain_ne_root _ _ _)
    | startKey root shared => exact absurd h (free.chain_ne_start _ _ _)
  | rootKey root shared =>
    cases d' with
    | messageKey key' => exact absurd h.symm (free.message_ne_root _ _ _)
    | chainKey key' => exact absurd h.symm (free.chain_ne_root _ _ _)
    | rootKey root' shared' =>
      obtain ⟨rfl, rfl⟩ := free.root_inj _ _ _ _ h
      rfl
    | startKey root' shared' => exact absurd h (free.root_ne_start _ _ _ _)
  | startKey root shared =>
    cases d' with
    | messageKey key' => exact absurd h.symm (free.message_ne_start _ _ _)
    | chainKey key' => exact absurd h.symm (free.chain_ne_start _ _ _)
    | rootKey root' shared' => exact absurd h.symm (free.root_ne_start _ _ _ _)
    | startKey root' shared' =>
      obtain ⟨rfl, rfl⟩ := free.start_inj _ _ _ _ h
      rfl

/-- A public key is no secret that two private keys agree on. -/
theorem FreeAgreement.publicKey_ne (agreement : FreeAgreement P) (a b c : σ) :
    publicKey P a ≠ P.x25519 b (publicKey P c) := by
  intro h
  rcases agreement.shared_inj a b c basepointBytes h with ⟨-, hpoint⟩ | ⟨-, hpoint⟩
  · exact agreement.basepoint_atomic.ne_shared c basepointBytes hpoint
  · exact agreement.basepoint_atomic.ne_shared b basepointBytes hpoint

/-! ## Guards -/

/-- The keys of the schedule that are out of reach, by the era they belong to, and the
    agreements that are. -/
structure Guard (σ : Type) where
  root : List σ → Prop
  chain : List σ → Nat → Prop
  message : List σ → Nat → Prop
  agreed : σ → σ → Prop

/-- A marked key was computed from a marked key or agreement. -/
structure Guard.Closed (g : Guard σ) : Prop where
  message : ∀ era n, g.message era n → g.chain era n
  chain : ∀ era n, g.chain era (n + 1) → g.chain era n
  start : ∀ own remote era, g.chain (own :: remote :: era) 0 →
    g.root (remote :: era) ∨ g.agreed own remote
  root : ∀ own remote era, g.root (own :: remote :: era) →
    g.root (remote :: era) ∨ g.agreed own remote

/-- The value of a marked key or agreement. -/
inductive GuardedKey (P : Primitives α σ) (sharedKey : SecretKey α) (g : Guard σ) :
    Vector α keyLen → Prop
  | root {era : List σ} {key : SecretKey α} (hkey : key = rootKeyOf P sharedKey era)
      (h : g.root era) : GuardedKey P sharedKey g key
  | chain {era : List σ} {start key : Key α} {n : Nat}
      (hstart : startKeyOf P sharedKey era = some start) (hkey : key = chainKeyAt P start n)
      (h : g.chain era n) : GuardedKey P sharedKey g key
  | message {era : List σ} {key : Key α} {n : Nat}
      (hkey : messageKeyOf P sharedKey era n = some key) (h : g.message era n) :
      GuardedKey P sharedKey g key
  | agreed {own remote : σ} {key : SecretKey α} (hkey : key = P.x25519 own (publicKey P remote))
      (h : g.agreed own remote) : GuardedKey P sharedKey g key

def Guarded (P : Primitives α σ) (sharedKey : SecretKey α) (g : Guard σ) : Term α σ → Prop
  | .bytes key => GuardedKey P sharedKey g key
  | .scalar own => ∃ a b, g.agreed a b ∧ (own = a ∨ own = b)
  | .frame sealed => GuardedKey P sharedKey g (Header.parse sealed.frame).ratchet

variable {sharedKey : SecretKey α} {g : Guard σ}

theorem startKeyOf_eq_some {era : List σ} {start : Key α}
    (h : startKeyOf P sharedKey era = some start) : ∃ own remote rest,
      era = own :: remote :: rest ∧ start = (expandRoot P (rootKeyOf P sharedKey (remote :: rest))
        (P.x25519 own (publicKey P remote))).2 := by
  rcases era_cases era with hshort | ⟨own, remote, rest, rfl⟩
  · rw [startKeyOf_of_length_le P _ hshort] at h
    cases h
  · exact ⟨own, remote, rest, rfl, (Option.some.inj h).symm⟩

/-- Where a guarded key comes from: it is the shared key, it is a guarded agreement, or it
    was derived from a guarded key. -/
theorem GuardedKey.source (closed : g.Closed) {key : Vector α keyLen}
    (h : GuardedKey P sharedKey g key) :
    key = sharedKey ∨
      (∃ own remote, g.agreed own remote ∧ key = P.x25519 own (publicKey P remote)) ∨
      ∃ d : Derivation α, key = d.output P ∧ ∃ p ∈ d.inputs, GuardedKey P sharedKey g p := by
  -- a root key and a start key have the same two sources
  have hinputs : ∀ {own remote : σ} {rest : List σ},
      g.root (remote :: rest) ∨ g.agreed own remote →
      ∃ p ∈ [rootKeyOf P sharedKey (remote :: rest), P.x25519 own (publicKey P remote)],
        GuardedKey P sharedKey g p := by
    intro own remote rest hsource
    rcases hsource with hroot | hagreed
    · exact ⟨_, List.mem_cons_self, .root rfl hroot⟩
    · exact ⟨_, List.mem_cons_of_mem _ List.mem_cons_self, .agreed rfl hagreed⟩
  cases h with
  | @root era _ hkey hroot =>
    rcases era_cases era with hshort | ⟨own, remote, rest, rfl⟩
    · rw [rootKeyOf_of_length_le P _ hshort] at hkey
      exact .inl hkey
    · exact .inr (.inr ⟨.rootKey _ _, hkey, hinputs (closed.root _ _ _ hroot)⟩)
  | @chain era start _ n hstart hkey hchain =>
    cases n with
    | zero =>
      obtain ⟨own, remote, rest, rfl, rfl⟩ := startKeyOf_eq_some hstart
      exact .inr (.inr ⟨.startKey _ _, hkey, hinputs (closed.start _ _ _ hchain)⟩)
    | succ n =>
      rw [chainKeyAt_succ] at hkey
      exact .inr (.inr ⟨.chainKey _, hkey, _, List.mem_cons_self,
        .chain hstart rfl (closed.chain _ _ hchain)⟩)
  | @message era _ n hkey hmessage =>
    rw [messageKeyOf, Option.map_eq_some_iff] at hkey
    obtain ⟨start, hstart, rfl⟩ := hkey
    exact .inr (.inr ⟨.messageKey _, rfl, _, List.mem_cons_self,
      .chain hstart rfl (closed.message _ _ hmessage)⟩)
  | agreed hkey hagreed => exact .inr (.inl ⟨_, _, hagreed, hkey⟩)

/-- A string that is computed from nothing is not guarded, unless it is the shared key. -/
theorem not_guarded_atomic (closed : g.Closed) {key : Vector α keyLen} (hatomic : Atomic P key)
    (hne : key ≠ sharedKey) : ¬ GuardedKey P sharedKey g key := by
  intro h
  rcases h.source closed with hshared | ⟨a, b, -, hagreed⟩ | ⟨d, hd, -⟩
  · exact hne hshared
  · exact hatomic.ne_shared _ _ hagreed
  · exact hatomic.ne_output d hd

section Free

variable (agreement : FreeAgreement P) (fresh : FreshSecret P sharedKey)

include agreement fresh

/-- A public key is not guarded. -/
theorem not_guarded_publicKey (closed : g.Closed) (own : σ) :
    ¬ GuardedKey P sharedKey g (publicKey P own) := by
  intro h
  rcases h.source closed with hshared | ⟨a, b, -, hagreed⟩ | ⟨d, hd, -⟩
  · exact fresh.atomic.ne_shared own _ hshared.symm
  · exact agreement.publicKey_ne _ _ _ hagreed
  · exact agreement.shared_ne_output _ _ d hd

variable (free : FreeKdf P)

include free

/-- No computation gives a guarded term from unguarded ones. -/
theorem guarding (closed : g.Closed) : Guarding (Computes P) (Guarded P sharedKey g) := by
  intro premises t hcomputes hguarded
  cases hcomputes with
  | derive d =>
    rcases hguarded.source closed with hshared | ⟨own, remote, -, hagreed⟩ | ⟨d', hd, p, hp, hguard⟩
    · exact absurd hshared.symm (fresh.atomic.ne_output d)
    · exact absurd hagreed.symm (agreement.shared_ne_output _ _ d)
    · obtain rfl := free.output_inj hd
      exact ⟨.bytes p, List.mem_map_of_mem hp, hguard⟩
  | basepoint =>
    rcases hguarded.source closed with hshared | ⟨own, remote, -, hagreed⟩ | ⟨d', hd, -⟩
    · exact absurd hshared.symm fresh.ne_basepoint
    · exact absurd hagreed (agreement.basepoint_atomic.ne_shared _ _)
    · exact absurd hd (agreement.basepoint_atomic.ne_output d')
  | agree own point =>
    rcases hguarded.source closed with hshared | ⟨a, b, hguard, hagreed⟩ | ⟨d', hd, -⟩
    · exact absurd hshared.symm (fresh.atomic.ne_shared own point)
    · -- one of the two private keys is needed
      refine ⟨.scalar own, List.mem_cons_self, a, b, hguard, ?_⟩
      exact (agreement.shared_inj _ _ _ _ hagreed).imp And.left And.left
    · exact absurd hd (agreement.shared_ne_output _ _ d')
  | header sealed => exact ⟨.frame sealed, List.mem_cons_self, hguarded⟩

/-! ## Which keys of the schedule are guarded -/

/-- What a key of the schedule is used for. -/
inductive Kind where
  | root
  | chain
  | message

omit [Octet α] in
def Derivation.kind : Derivation α → Kind
  | .messageKey _ => .message
  | .chainKey _ => .chain
  | .rootKey _ _ => .root
  | .startKey _ _ => .chain

/-- A key was derived as a key of a kind, or it is the shared key, the first root key. -/
def HasKind (P : Primitives α σ) (sharedKey : SecretKey α) (kind : Kind)
    (key : Vector α keyLen) : Prop :=
  (kind = .root ∧ key = sharedKey) ∨ ∃ d : Derivation α, d.kind = kind ∧ key = d.output P

omit agreement in
theorem HasKind.unique {kind kind' : Kind} {key : Vector α keyLen}
    (h : HasKind P sharedKey kind key) (h' : HasKind P sharedKey kind' key) : kind = kind' := by
  rcases h with ⟨rfl, rfl⟩ | ⟨d, rfl, hd⟩
  · rcases h' with ⟨rfl, -⟩ | ⟨d', rfl, hd'⟩
    · rfl
    · exact absurd hd' (fresh.atomic.ne_output d')
  · rcases h' with ⟨rfl, rfl⟩ | ⟨d', rfl, hd'⟩
    · exact absurd hd (fresh.atomic.ne_output d)
    · rw [free.output_inj (hd.symm.trans hd')]

omit free in
theorem HasKind.ne_shared {kind : Kind} {key : Vector α keyLen}
    (h : HasKind P sharedKey kind key) (own : σ) (point : Vector α keyLen) :
    key ≠ P.x25519 own point := by
  rintro rfl
  rcases h with ⟨-, hshared⟩ | ⟨d, -, hd⟩
  · exact fresh.atomic.ne_shared own point hshared.symm
  · exact agreement.shared_ne_output own point d hd

omit agreement fresh free

theorem hasKind_rootKeyOf (era : List σ) :
    HasKind P sharedKey .root (rootKeyOf P sharedKey era) := by
  rcases era_cases era with hshort | ⟨own, remote, rest, rfl⟩
  · exact .inl ⟨rfl, rootKeyOf_of_length_le P _ hshort⟩
  · exact .inr ⟨.rootKey _ _, rfl, rfl⟩

theorem hasKind_chainKeyAt {era : List σ} {start : Key α}
    (hstart : startKeyOf P sharedKey era = some start) (n : Nat) :
    HasKind P sharedKey .chain (chainKeyAt P start n) := by
  cases n with
  | zero =>
    obtain ⟨own, remote, rest, -, rfl⟩ := startKeyOf_eq_some hstart
    exact .inr ⟨.startKey _ _, rfl, rfl⟩
  | succ n => exact .inr ⟨.chainKey _, rfl, chainKeyAt_succ P start n⟩

theorem hasKind_messageKeyOf {era : List σ} {n : Nat} {key : Key α}
    (hkey : messageKeyOf P sharedKey era n = some key) : HasKind P sharedKey .message key := by
  obtain ⟨own, remote, rest, -, rfl⟩ := messageKeyOf_eq_some P hkey
  exact .inr ⟨.messageKey _, rfl, rfl⟩

include agreement fresh free

/-- A root key is guarded only if that of an era of its length is. -/
theorem GuardedKey.root_of {era : List σ}
    (h : GuardedKey P sharedKey g (rootKeyOf P sharedKey era)) :
    ∃ era', g.root era' ∧ era'.length - 1 = era.length - 1 := by
  have hkind : HasKind P sharedKey .root (rootKeyOf P sharedKey era) := hasKind_rootKeyOf era
  cases h with
  | @root era' _ hkey hroot =>
    exact ⟨era', hroot, free.rootKeyOf_length fresh.sharedKey hkey.symm⟩
  | chain hstart hkey _ =>
    rw [hkey] at hkind
    cases hkind.unique fresh free (hasKind_chainKeyAt hstart _)
  | message hkey _ => cases hkind.unique fresh free (hasKind_messageKeyOf hkey)
  | agreed hkey _ => exact absurd hkey (hkind.ne_shared agreement fresh _ _)

/-- A chain key is guarded only if that of an era of its length is, at its position. -/
theorem GuardedKey.chain_of {era : List σ} {start : Key α} {n : Nat}
    (hstart : startKeyOf P sharedKey era = some start)
    (h : GuardedKey P sharedKey g (chainKeyAt P start n)) :
    ∃ era', g.chain era' n ∧ era'.length = era.length := by
  have hkind := hasKind_chainKeyAt hstart n
  cases h with
  | root hkey _ =>
    rw [hkey] at hkind
    cases hkind.unique fresh free (hasKind_rootKeyOf _)
  | @chain era' start' _ n' hstart' hkey hchain =>
    obtain ⟨own, remote, rest, rfl, rfl⟩ := startKeyOf_eq_some hstart
    obtain ⟨own', remote', rest', rfl, rfl⟩ := startKeyOf_eq_some hstart'
    obtain ⟨⟨hroot, -⟩, rfl⟩ := free.chainKeyAt_inj hkey
    have hlen := free.rootKeyOf_length fresh.sharedKey hroot
    refine ⟨_, hchain, ?_⟩
    simp only [List.length_cons, Nat.add_sub_cancel] at hlen ⊢
    omega
  | message hkey _ => cases hkind.unique fresh free (hasKind_messageKeyOf hkey)
  | agreed hkey _ => exact absurd hkey (hkind.ne_shared agreement fresh _ _)

/-- A message key is guarded only if that of an era of its length is, at its number. -/
theorem GuardedKey.message_of {era : List σ} {n : Nat} {key : Key α}
    (hkeyOf : messageKeyOf P sharedKey era n = some key) (h : GuardedKey P sharedKey g key) :
    ∃ era', g.message era' n ∧ messageKeyOf P sharedKey era' n = some key ∧
      era'.length = era.length := by
  have hkind := hasKind_messageKeyOf hkeyOf
  cases h with
  | root hkey _ =>
    rw [hkey] at hkind
    cases hkind.unique fresh free (hasKind_rootKeyOf _)
  | chain hstart hkey _ =>
    rw [hkey] at hkind
    cases hkind.unique fresh free (hasKind_chainKeyAt hstart _)
  | @message era' _ n' hkey hmessage =>
    obtain ⟨hlen, rfl⟩ := free.messageKeyOf_inj fresh.sharedKey hkeyOf hkey
    exact ⟨era', hmessage, hkey, hlen.symm⟩
  | agreed hkey _ => exact absurd hkey (hkind.ne_shared agreement fresh _ _)

end Free

end Quietwire
