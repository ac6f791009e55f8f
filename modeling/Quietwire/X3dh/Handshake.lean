/-
  Quietwire.X3dh.Handshake

  Hybrid X3DH: what the two sides hold and exchange, and the two functions that
  derive the shared key.

  The second half states what they compute.  Both sides agree on a list of
  secrets, each from a private key of their own and a public key of the other
  side, and both derive the key from these secrets and a transcript.
-/
import Quietwire.Crypto.Hybrid
import Quietwire.Ratchet.Chain

namespace Quietwire

/-- `SHARED_KEY_LEN`. -/
abbrev sharedKeyLen : Nat := 32

variable {α σ δ ρ : Type}

section Constants

variable [Octet α]

/-- `TRANSCRIPT_CONTEXT`. -/
def transcriptContext : List α := asciiBytes "QUIETWIRE-X3DH-TRANSCRIPT-v1"
/-- `HYBRID_INFO`. -/
def hybridInfo : List α := asciiBytes "QUIETWIRE-X3DH-HYBRID-v1"
/-- `CURVE25519_PREFIX`. -/
def curve25519Prefix : Vector α 32 := Vector.replicate 32 (Octet.ofByte 0xFF)

end Constants

/-- The three public identity keys of a party. -/
structure IdentityPublic (α : Type) where
  sign : VerifyingKey α
  dh : PublicKey α
  kem : EncapsulationKey α
  deriving DecidableEq

def IdentityPublic.toBytes (identity : IdentityPublic α) : List α :=
  [identity.sign.toList, identity.dh.toList, identity.kem.toList].flatten

/-- The responder keys an initiator needs. -/
structure PrekeyBundle (α : Type) where
  identity : IdentityPublic α
  signedPrekey : PublicKey α
  oneTimePrekey : Option (PublicKey α)
  deriving DecidableEq

/-- What the initiator sends so that the responder can derive the same key. -/
structure InitialMessage (α : Type) where
  ephemeral : PublicKey α
  kemCiphertext : Ciphertext α
  deriving DecidableEq

structure Initiator (α σ : Type) where
  identity : IdentityPublic α
  identityDh : σ

structure Responder (α σ δ : Type) where
  identity : IdentityPublic α
  identityDh : σ
  kem : δ
  signedPrekey : σ
  oneTimePrekey : Option σ

/-- The bytes that `transcript` hashes. -/
def transcriptBytes (initiator : IdentityPublic α) (bundle : PrekeyBundle α)
    (message : InitialMessage α) : List α :=
  let oneTimePrekey := (bundle.oneTimePrekey.map Vector.toList).getD []
  [initiator.toBytes, bundle.identity.toBytes, message.ephemeral.toList,
    bundle.signedPrekey.toList, oneTimePrekey, message.kemCiphertext.toList].flatten

/-- What `derive_shared_key` extracts from. -/
def keyMaterial [Octet α] (secrets : List (SecretKey α)) : List α :=
  (curve25519Prefix.toList :: secrets.map Vector.toList).flatten

variable [DecidableEq α] [Octet α] (P : Primitives α σ) (H : HybridPrimitives α δ ρ)

omit [DecidableEq α] in
def transcript (initiator : IdentityPublic α) (bundle : PrekeyBundle α)
    (message : InitialMessage α) : Vector α 32 :=
  H.deriveKey transcriptContext (transcriptBytes initiator bundle message)

omit [DecidableEq α] in
def deriveSharedKey (secrets : List (SecretKey α)) (transcript : Vector α 32) :
    Except CryptoError (SecretKey α) := do
  let okm ← hkdfSha512 P (keyMaterial secrets) transcript.toList hybridInfo sharedKeyLen
  SecretKey.fromSlice okm.toList

namespace Initiator

def initiateWith (initiator : Initiator α σ) (bundle : PrekeyBundle α) (ephemeral : σ)
    (encapsulation : Ciphertext α × SecretKey α) :
    Except CryptoError (SecretKey α × InitialMessage α) := do
  let (kemCiphertext, kemShared) := encapsulation
  let message : InitialMessage α := { ephemeral := publicKey P ephemeral, kemCiphertext }
  let mut secrets := [
    ← diffieHellman P initiator.identityDh bundle.signedPrekey,
    ← diffieHellman P ephemeral bundle.identity.dh,
    ← diffieHellman P ephemeral bundle.signedPrekey]
  if let some oneTimePrekey := bundle.oneTimePrekey then
    secrets := secrets ++ [← diffieHellman P ephemeral oneTimePrekey]
  secrets := secrets ++ [kemShared]
  let key ← deriveSharedKey P secrets (transcript H initiator.identity bundle message)
  return (key, message)

/-- `initiate`, with the outcomes of the two draws of randomness. -/
def initiate (initiator : Initiator α σ) (bundle : PrekeyBundle α)
    (generated : Except CryptoError σ) (randomness : Except CryptoError ρ) :
    Except CryptoError (SecretKey α × InitialMessage α) := do
  let ephemeral ← generated
  let encapsulation := H.encapsulate bundle.identity.kem (← randomness)
  initiator.initiateWith P H bundle ephemeral encapsulation

end Initiator

namespace Responder

omit [DecidableEq α] in
/-- The bundle these keys answer to. -/
def bundle (responder : Responder α σ δ) : PrekeyBundle α where
  identity := responder.identity
  signedPrekey := publicKey P responder.signedPrekey
  oneTimePrekey := responder.oneTimePrekey.map (publicKey P)

def respond (responder : Responder α σ δ) (initiator : IdentityPublic α)
    (message : InitialMessage α) : Except CryptoError (SecretKey α) := do
  let mut secrets := [
    ← diffieHellman P responder.signedPrekey initiator.dh,
    ← diffieHellman P responder.identityDh message.ephemeral,
    ← diffieHellman P responder.signedPrekey message.ephemeral]
  if let some oneTimePrekey := responder.oneTimePrekey then
    secrets := secrets ++ [← diffieHellman P oneTimePrekey message.ephemeral]
  secrets := secrets ++ [H.decapsulate responder.kem message.kemCiphertext]
  deriveSharedKey P secrets (transcript H initiator (responder.bundle P) message)

end Responder

/-! ## What the two sides compute -/

/-- What a side derives its key from. -/
structure KeyInput (α : Type) where
  secrets : List (SecretKey α)
  transcriptBytes : List α

omit [DecidableEq α] in
def KeyInput.transcript (input : KeyInput α) : Vector α 32 :=
  H.deriveKey transcriptContext input.transcriptBytes

omit [DecidableEq α] in
def KeyInput.sharedKey (input : KeyInput α) : SecretKey α :=
  P.hkdf (keyMaterial input.secrets) (input.transcript H).toList hybridInfo sharedKeyLen

/-- A private key, and the public key that it is agreed with. -/
abbrev AgreementPair (α σ : Type) := σ × PublicKey α

omit [DecidableEq α] in
def agreed (pair : AgreementPair α σ) : SecretKey α := P.x25519 pair.1 pair.2

namespace Initiator

omit [DecidableEq α] [Octet α] in
/-- The agreements of the initiator, in the order of its secrets. -/
def agreements (initiator : Initiator α σ) (bundle : PrekeyBundle α) (ephemeral : σ) :
    List (AgreementPair α σ) :=
  [(initiator.identityDh, bundle.signedPrekey), (ephemeral, bundle.identity.dh),
    (ephemeral, bundle.signedPrekey)] ++ (bundle.oneTimePrekey.map (ephemeral, ·)).toList

omit [DecidableEq α] in
def keyInput (initiator : Initiator α σ) (bundle : PrekeyBundle α) (ephemeral : σ)
    (encapsulation : Ciphertext α × SecretKey α) : KeyInput α where
  secrets := (initiator.agreements bundle ephemeral).map (agreed P) ++ [encapsulation.2]
  transcriptBytes :=
    transcriptBytes initiator.identity bundle ⟨publicKey P ephemeral, encapsulation.1⟩

end Initiator

namespace Responder

omit [DecidableEq α] [Octet α] in
/-- The agreements of the responder, in the order of its secrets. -/
def agreements (responder : Responder α σ δ) (initiator : IdentityPublic α)
    (message : InitialMessage α) : List (AgreementPair α σ) :=
  [(responder.signedPrekey, initiator.dh), (responder.identityDh, message.ephemeral),
    (responder.signedPrekey, message.ephemeral)] ++
      (responder.oneTimePrekey.map (·, message.ephemeral)).toList

omit [DecidableEq α] in
def keyInput (responder : Responder α σ δ) (initiator : IdentityPublic α)
    (message : InitialMessage α) : KeyInput α where
  secrets := (responder.agreements initiator message).map (agreed P) ++
    [H.decapsulate responder.kem message.kemCiphertext]
  transcriptBytes := transcriptBytes initiator (responder.bundle P) message

end Responder

variable {P H}

omit [DecidableEq α] in
/-- `derive_shared_key` does not fail. -/
theorem deriveSharedKey_eq (secrets : List (SecretKey α)) (digest : Vector α 32) :
    deriveSharedKey P secrets digest
      = .ok (P.hkdf (keyMaterial secrets) digest.toList hybridInfo sharedKeyLen) := by
  have hlen : ¬ 255 * 64 < sharedKeyLen := by decide
  rw [deriveSharedKey, hkdfSha512, if_neg hlen]
  exact SecretKey.fromSlice_toList _

/-- A computation goes on after an agreement exactly when the secret is not all zero. -/
theorem diffieHellman_bind_eq_ok_iff {β : Type} {own : σ} {peer : PublicKey α}
    {next : SecretKey α → Except CryptoError β} {result : β} :
    (diffieHellman P own peer >>= next) = .ok result ↔
      P.x25519 own peer ≠ zeroBytes ∧ next (P.x25519 own peer) = .ok result := by
  unfold diffieHellman
  by_cases hzero : P.x25519 own peer = zeroBytes
  · simp only [hzero, if_true, ne_eq, not_true, false_and, iff_false]
    exact nofun
  · simp only [hzero, if_false, ne_eq, not_false_eq_true, true_and]
    exact Iff.rfl

/-- The initiator succeeds when none of its agreements gives the all-zero secret. -/
theorem Initiator.initiateWith_eq_ok_iff {initiator : Initiator α σ} {bundle : PrekeyBundle α}
    {ephemeral : σ} {encapsulation : Ciphertext α × SecretKey α} {key : SecretKey α}
    {message : InitialMessage α} :
    initiator.initiateWith P H bundle ephemeral encapsulation = .ok (key, message) ↔
      (∀ pair ∈ initiator.agreements bundle ephemeral, agreed P pair ≠ zeroBytes) ∧
        message = ⟨publicKey P ephemeral, encapsulation.1⟩ ∧
        key = (initiator.keyInput P bundle ephemeral encapsulation).sharedKey P H := by
  -- three agreements, or four with a one-time prekey
  cases hprekey : bundle.oneTimePrekey with
  | none =>
    simp only [initiateWith, diffieHellman_bind_eq_ok_iff, hprekey, deriveSharedKey_eq,
      agreements, keyInput, KeyInput.sharedKey, List.forall_mem_cons, Option.map_none,
      Option.toList_none, List.append_nil]
    constructor
    · rintro ⟨hone, htwo, hthree, heq⟩
      obtain ⟨hkey, hmessage⟩ := Prod.mk.inj (Except.ok.inj heq)
      exact ⟨⟨hone, htwo, hthree, nofun⟩, hmessage.symm, hkey.symm⟩
    · rintro ⟨⟨hone, htwo, hthree, -⟩, rfl, rfl⟩
      exact ⟨hone, htwo, hthree, rfl⟩
  | some oneTimePrekey =>
    simp only [initiateWith, diffieHellman_bind_eq_ok_iff, hprekey, deriveSharedKey_eq,
      agreements, keyInput, KeyInput.sharedKey, List.forall_mem_cons, Option.map_some,
      Option.toList_some, List.cons_append, List.nil_append]
    constructor
    · rintro ⟨hone, htwo, hthree, hfour, heq⟩
      obtain ⟨hkey, hmessage⟩ := Prod.mk.inj (Except.ok.inj heq)
      exact ⟨⟨hone, htwo, hthree, hfour, nofun⟩, hmessage.symm, hkey.symm⟩
    · rintro ⟨⟨hone, htwo, hthree, hfour, -⟩, rfl, rfl⟩
      exact ⟨hone, htwo, hthree, hfour, rfl⟩

/-- Likewise for the responder. -/
theorem Responder.respond_eq_ok_iff {responder : Responder α σ δ} {initiator : IdentityPublic α}
    {message : InitialMessage α} {key : SecretKey α} :
    responder.respond P H initiator message = .ok key ↔
      (∀ pair ∈ responder.agreements initiator message, agreed P pair ≠ zeroBytes) ∧
        key = (responder.keyInput P H initiator message).sharedKey P H := by
  cases hprekey : responder.oneTimePrekey with
  | none =>
    simp only [respond, diffieHellman_bind_eq_ok_iff, hprekey, deriveSharedKey_eq,
      agreements, keyInput, KeyInput.sharedKey, List.forall_mem_cons, Option.map_none,
      Option.toList_none, List.append_nil]
    constructor
    · rintro ⟨hone, htwo, hthree, heq⟩
      exact ⟨⟨hone, htwo, hthree, nofun⟩, (Except.ok.inj heq).symm⟩
    · rintro ⟨⟨hone, htwo, hthree, -⟩, rfl⟩
      exact ⟨hone, htwo, hthree, rfl⟩
  | some oneTimePrekey =>
    simp only [respond, diffieHellman_bind_eq_ok_iff, hprekey, deriveSharedKey_eq,
      agreements, keyInput, KeyInput.sharedKey, List.forall_mem_cons, Option.map_some,
      Option.toList_some, List.cons_append, List.nil_append]
    constructor
    · rintro ⟨hone, htwo, hthree, hfour, heq⟩
      exact ⟨⟨hone, htwo, hthree, hfour, nofun⟩, (Except.ok.inj heq).symm⟩
    · rintro ⟨⟨hone, htwo, hthree, hfour, -⟩, rfl⟩
      exact ⟨hone, htwo, hthree, hfour, rfl⟩

end Quietwire
