/-
  Quietwire.Crypto.Primitives

  The wrappers of `quietwire-crypto` that the end-to-end layer calls, over the
  cryptographic libraries as parameters.  A field of `Primitives` is one entry
  point of a library outside this repository; the wrappers around it (length
  checks, the refusal of an all-zero shared secret, the mapping of failures to
  `CryptoError`) are the repository's own.
-/
import Quietwire.Support.Octet

namespace Quietwire

/-- `quietwire_crypto::Error`. -/
inductive CryptoError where
  | invalidLength
  | authentication
  | rng
  | kdf
  | invalidPublicKey
  | invalidSignature
  deriving DecidableEq, Repr

/-- Length of a symmetric key, and of both kinds of X25519 key. -/
abbrev keyLen : Nat := 32
/-- `aead::NONCE_LEN`. -/
abbrev nonceLen : Nat := 24
/-- `aead::TAG_LEN`. -/
abbrev tagLen : Nat := 16
/-- `x25519::PUBLIC_KEY_LEN`. -/
abbrev publicKeyLen : Nat := 32
/-- `kdf::HMAC_SHA512_LEN`. -/
abbrev hmacSha512Len : Nat := 64

/-- The 32 bytes of a `SecretKey`. -/
abbrev SecretKey (α : Type) := Vector α keyLen
/-- The 32 bytes of an `x25519::PublicKey`, as sent on the wire. -/
abbrev PublicKey (α : Type) := Vector α publicKeyLen
/-- The 24 bytes of an `aead::Nonce`. -/
abbrev Nonce (α : Type) := Vector α nonceLen

/-- The library functions behind the wrappers: `x25519_dalek::x25519`, HMAC and
    HKDF over SHA-512, and the detached calls of `XChaCha20Poly1305`.  `σ` is the
    type of X25519 private scalars. -/
structure Primitives (α σ : Type) where
  x25519 : σ → Vector α 32 → Vector α 32
  hmac : (key message : List α) → Vector α hmacSha512Len
  hkdf : (ikm salt info : List α) → (len : Nat) → Vector α len
  aeadEncrypt : SecretKey α → Nonce α → (msg aad : List α) → Option (List α)
  aeadDecrypt : SecretKey α → Nonce α → (msg aad : List α) → Option (List α)

/-- `rng::fill`, which `Nonce::random` and `PrivateKey::generate` pass on: `random` is what
    the operating system fills in, or `none` when it fails. -/
def rngFill {β : Type} (random : Option β) : Except CryptoError β :=
  match random with
  | some b => .ok b
  | none => .error .rng

section Wrappers

variable {α σ : Type}

/-- `SecretKey::from_slice`: copies exactly 32 bytes into a new key. -/
def SecretKey.fromSlice (bytes : List α) : Except CryptoError (SecretKey α) :=
  if h : bytes.length = keyLen then .ok ⟨bytes.toArray, by simpa using h⟩
  else .error .invalidLength

/-- A 32-byte array converts back to the key with these bytes: the length check
    of `from_slice` cannot fail on it. -/
@[simp] theorem SecretKey.fromSlice_toList (key : SecretKey α) :
    SecretKey.fromSlice key.toList = .ok key := by
  have hlen : key.toList.length = keyLen := by simp
  rw [SecretKey.fromSlice, dif_pos hlen]
  rfl

variable [Octet α] (P : Primitives α σ)

/-- `x25519_dalek::X25519_BASEPOINT_BYTES`. -/
def basepointBytes : Vector α 32 :=
  (Vector.replicate 32 (Octet.ofByte 0)).set 0 (Octet.ofByte 9)

/-- The all-zero output that X25519 gives on a low-order point. -/
def zeroBytes : Vector α 32 := Vector.replicate 32 (Octet.ofByte 0)

/-- `PrivateKey::public_key`. -/
def publicKey (own : σ) : PublicKey α := P.x25519 own basepointBytes

/-- `PrivateKey::diffie_hellman`. -/
def diffieHellman [DecidableEq α] (own : σ) (peer : PublicKey α) :
    Except CryptoError (SecretKey α) :=
  let shared := P.x25519 own peer
  if shared = zeroBytes then .error .invalidPublicKey
  else .ok shared

/-- `kdf::hkdf_sha512`. -/
def hkdfSha512 (ikm salt info : List α) (len : Nat) : Except CryptoError (Vector α len) :=
  if 255 * 64 < len then .error .invalidLength
  else .ok (P.hkdf ikm salt info len)

/-- `aead::seal`: ciphertext followed by tag. -/
def aeadSeal (key : SecretKey α) (nonce : Nonce α) (aad plaintext : List α) :
    Except CryptoError (List α) :=
  match P.aeadEncrypt key nonce plaintext aad with
  | some sealed => .ok sealed
  | none => .error .invalidLength

/-- `aead::open`. -/
def aeadOpen (key : SecretKey α) (nonce : Nonce α) (aad sealed : List α) :
    Except CryptoError (List α) :=
  match P.aeadDecrypt key nonce sealed aad with
  | some plaintext => .ok plaintext
  | none => .error .authentication

omit [Octet α] in
theorem aeadSeal_eq_ok_iff {key : SecretKey α} {nonce : Nonce α}
    {aad plaintext sealed : List α} : aeadSeal P key nonce aad plaintext = .ok sealed ↔
      P.aeadEncrypt key nonce plaintext aad = some sealed := by
  unfold aeadSeal
  cases P.aeadEncrypt key nonce plaintext aad with
  | none => simp
  | some bytes => simp

omit [Octet α] in
theorem aeadOpen_eq_ok_iff {key : SecretKey α} {nonce : Nonce α}
    {aad sealed plaintext : List α} : aeadOpen P key nonce aad sealed = .ok plaintext ↔
      P.aeadDecrypt key nonce sealed aad = some plaintext := by
  unfold aeadOpen
  cases P.aeadDecrypt key nonce sealed aad with
  | none => simp
  | some bytes => simp

/-- What honest parties rely on: opening undoes sealing, and X25519 on honest keys commutes
    and does not give the all-zero output. -/
structure CorrectPrimitives : Prop where
  opens_sealed : ∀ (key : SecretKey α) (nonce : Nonce α) (aad plaintext sealed : List α),
    aeadSeal P key nonce aad plaintext = .ok sealed →
      aeadOpen P key nonce aad sealed = .ok plaintext
  commutes : ∀ a b, P.x25519 a (publicKey P b) = P.x25519 b (publicKey P a)
  contributory : ∀ a b, P.x25519 a (publicKey P b) ≠ zeroBytes

end Wrappers

end Quietwire
