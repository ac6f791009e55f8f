/-
  Quietwire.AtRest.Hierarchy

  The at-rest key hierarchy: a KEK derived from a password wraps one DEK, and the
  DEK yields one subkey for each purpose.  Argon2id is a parameter, as the other
  libraries are.
-/
import Quietwire.Ratchet.Chain
import Quietwire.Ratchet.Refusal

namespace Quietwire
namespace AtRest

variable {α σ : Type}

/-- How an operation stops without a result. -/
inductive Failure where
  | error (error : CryptoError)
  | panic
  deriving DecidableEq, Repr

/-- The `?` operator. -/
def orFail {β : Type} (result : Except CryptoError β) : Except Failure β :=
  result.mapError .error

/-! ## Key-encryption keys and data-encryption keys -/

/-- `WRAPPED_DEK_LEN`. -/
abbrev wrappedDekLen : Nat := nonceLen + keyLen + tagLen

/-- Key-encryption key: its only job is wrapping the DEK. -/
structure Kek (α : Type) where
  key : SecretKey α

/-- Data-encryption key: the root of every at-rest subkey. -/
structure Dek (α : Type) where
  key : SecretKey α

/-- What a DEK subkey protects. -/
inductive Purpose where
  | db
  | field
  | identity
  | sessions
  /-- `Meta`. -/
  | metadata
  deriving DecidableEq, Repr

/-- A DEK sealed under a KEK: nonce, ciphertext and tag. -/
structure WrappedDek (α : Type) where
  bytes : Vector α wrappedDekLen

section Labels

variable [Octet α]

/-- `WRAP_AAD`. -/
def wrapAad : List α := asciiBytes "QUIETWIRE-DEK-WRAP-v1"
/-- `SUBKEY_LABEL`. -/
def subkeyLabel : List α := asciiBytes "QUIETWIRE-DEK-v1"

def Purpose.label : Purpose → List α
  | .db => asciiBytes "db"
  | .field => asciiBytes "field"
  | .identity => asciiBytes "identity"
  | .sessions => asciiBytes "sessions"
  | .metadata => asciiBytes "meta"

end Labels

/-! ## Wrapping, unwrapping and subkeys -/

section Operations

variable [Octet α] (P : Primitives α σ)

/-- `Dek::generate`. -/
def Dek.generate (random : Option (SecretKey α)) : Except CryptoError (Dek α) :=
  (rngFill random).map Dek.mk

/-- `nonce` is what `Nonce::random` draws. -/
def Dek.wrapWith (self : Dek α) (kek : Kek α) (random : Option (Nonce α)) :
    Except Failure (WrappedDek α) := do
  let nonce ← orFail (rngFill random)
  let sealed ← orFail (aeadSeal P kek.key nonce wrapAad self.key.toList)
  let bytes := write (Vector.replicate wrappedDekLen (Octet.ofByte 0)) 0 nonce
  -- copying into an array of another length panics
  if h : sealed.length = keyLen + tagLen then
    return ⟨write bytes nonceLen (⟨sealed.toArray, by simpa using h⟩ : Vector α (keyLen + tagLen))⟩
  else throw .panic

def Dek.subkey (self : Dek α) (purpose : Purpose) : Except CryptoError (SecretKey α) := do
  let info := subkeyLabel ++ purpose.label
  let okm ← hkdfSha512 P self.key.toList [] info keyLen
  SecretKey.fromSlice okm.toList

namespace WrappedDek

omit [Octet α] in
def nonce (self : WrappedDek α) : Nonce α := slice self.bytes 0 nonceLen (by decide)

omit [Octet α] in
/-- `self.0[NONCE_LEN..]`. -/
def sealed (self : WrappedDek α) : Vector α (keyLen + tagLen) :=
  slice self.bytes nonceLen (keyLen + tagLen) (by decide)

def unwrapWith (self : WrappedDek α) (kek : Kek α) : Except CryptoError (Dek α) := do
  let dek ← aeadOpen P kek.key self.nonce wrapAad self.sealed.toList
  (SecretKey.fromSlice dek).map Dek.mk

end WrappedDek

end Operations

/-! ## Their specifications -/

section Spec

variable [Octet α] {P : Primitives α σ}

/-- The key that `subkey` returns. -/
def Dek.subkeyFor (P : Primitives α σ) (self : Dek α) (purpose : Purpose) : SecretKey α :=
  P.hkdf self.key.toList [] (subkeyLabel ++ purpose.label) keyLen

/-- `subkey` fails on no key and for no purpose. -/
theorem Dek.subkey_eq (self : Dek α) (purpose : Purpose) :
    self.subkey P purpose = .ok (self.subkeyFor P purpose) := by
  rw [Dek.subkey, hkdfSha512, if_neg (by decide)]
  exact SecretKey.fromSlice_toList _

omit [Octet α] in
theorem write_nonce_sealed (start : Vector α wrappedDekLen) (nonce : Nonce α)
    (field : Vector α (keyLen + tagLen)) :
    (⟨write (write start 0 nonce) nonceLen field⟩ : WrappedDek α).nonce = nonce ∧
      (⟨write (write start 0 nonce) nonceLen field⟩ : WrappedDek α).sealed = field := by
  refine ⟨?_, slice_write_self _ _ _ (by decide)⟩
  rw [WrappedDek.nonce, slice_write_of_disjoint _ _ _ _ (by decide) (.inl (by decide)),
    slice_write_self _ _ _ (by decide)]

omit [Octet α] in
/-- A wrapped DEK is its two fields. -/
theorem WrappedDek.ext_fields {v w : WrappedDek α} (hnonce : v.nonce = w.nonce)
    (hsealed : v.sealed = w.sealed) : v = w := by
  obtain ⟨v⟩ := v
  obtain ⟨w⟩ := w
  have hv := slice_append_slice (m := 24) (n := 48) v (by decide) (by decide)
  have hw := slice_append_slice (m := 24) (n := 48) w (by decide) (by decide)
  rw [WrappedDek.nonce, WrappedDek.nonce] at hnonce
  rw [WrappedDek.sealed, WrappedDek.sealed] at hsealed
  rw [WrappedDek.mk.injEq, ← hv, ← hw]
  exact congrArg₂ (· ++ ·) hnonce hsealed

/-- What a successful `wrap_with` returned. -/
theorem Dek.wrapWith_eq_ok_iff {self : Dek α} {kek : Kek α} {random : Option (Nonce α)}
    {w : WrappedDek α} : self.wrapWith P kek random = .ok w ↔
      random = some w.nonce ∧
        aeadSeal P kek.key w.nonce wrapAad self.key.toList = .ok w.sealed.toList := by
  cases random with
  | none => simp [Dek.wrapWith, rngFill, orFail, Except.mapError, bind, Except.bind]
  | some nonce =>
    cases hseal : aeadSeal P kek.key nonce wrapAad self.key.toList with
    | error e =>
      simp only [Dek.wrapWith, rngFill, orFail, Except.mapError, hseal, bind, Except.bind,
        reduceCtorEq, false_iff, not_and]
      rintro hnonce hok
      rw [← Option.some.inj hnonce, hseal] at hok
      cases hok
    | ok sealed =>
      simp only [Dek.wrapWith, rngFill, orFail, Except.mapError, hseal, bind, Except.bind, pure,
        Except.pure, throw, throwThe, MonadExceptOf.throw]
      constructor
      · intro h
        split at h
        · obtain rfl := Except.ok.inj h
          obtain ⟨hnonce, hsealed⟩ := write_nonce_sealed (α := α) (Vector.replicate _ _) nonce
            ⟨sealed.toArray, by simpa⟩
          rw [hnonce, hsealed, hseal]
          exact ⟨rfl, rfl⟩
        · cases h
      · rintro ⟨hnonce, hok⟩
        rw [← Option.some.inj hnonce, hseal] at hok
        obtain rfl := Except.ok.inj hok
        rw [dif_pos Vector.length_toList]
        refine congrArg Except.ok (WrappedDek.ext_fields ?_ ?_)
        · rw [(write_nonce_sealed _ _ _).1, Option.some.inj hnonce]
        · rw [(write_nonce_sealed _ _ _).2]
          rfl

/-- What a successful `unwrap_with` returned. -/
theorem WrappedDek.unwrapWith_eq_ok_iff {w : WrappedDek α} {kek : Kek α} {dek : Dek α} :
    w.unwrapWith P kek = .ok dek ↔
      aeadOpen P kek.key w.nonce wrapAad w.sealed.toList = .ok dek.key.toList := by
  rw [WrappedDek.unwrapWith]
  cases hopen : aeadOpen P kek.key w.nonce wrapAad w.sealed.toList with
  | error e => simp [bind, Except.bind]
  | ok opened =>
    simp only [bind, Except.bind, Except.ok.injEq]
    constructor
    · intro h
      rw [SecretKey.fromSlice] at h
      split at h
      · obtain rfl := Except.ok.inj h
        rfl
      · cases h
    · rintro rfl
      rw [SecretKey.fromSlice_toList]
      rfl

end Spec

/-! ## Passwords -/

/-- Only the two profiles exist. -/
structure KdfParams where
  memoryKib : UInt32
  iterations : UInt32
  parallelism : UInt32
  profile : (memoryKib, iterations, parallelism) = (262144, 4, 2) ∨
    (memoryKib, iterations, parallelism) = (1048576, 4, 2)

namespace KdfParams

/-- 1 GiB, 4 passes, 2 lanes. -/
def desktop : KdfParams := ⟨1048576, 4, 2, .inr rfl⟩

end KdfParams

/-- A per-installation random salt, stored next to the wrapped DEK. -/
structure Salt (α : Type) where
  bytes : Vector α 32

/-- Argon2id v1.3 with a 32-byte output: the password, the salt, and the memory in KiB, the
    passes and the lanes; `none` if it rejects the parameters. -/
abbrev Argon2id (α : Type) := List α → Vector α 32 → UInt32 → UInt32 → UInt32 → Option (SecretKey α)

def deriveKek (argon2id : Argon2id α) (password : List α) (salt : Salt α) (params : KdfParams) :
    Except CryptoError (Kek α) :=
  match argon2id password salt.bytes params.memoryKib params.iterations params.parallelism with
  | some key => .ok ⟨key⟩
  | none => .error .kdf

end AtRest
end Quietwire
