/-
  Quietwire.Symbolic.Hybrid

  BLAKE3 and ML-KEM as free constructors.  Decapsulation keys and the randomness of
  an encapsulation are numbers.
-/
import Quietwire.Symbolic.Primitives
import Quietwire.X3dh.Transcript

namespace Quietwire
namespace Symbolic

def deriveKey (context keyMaterial : List Letter) : Vector Letter 32 :=
  padded 32 (.digest (code context) (code keyMaterial))

def encapsulationKey (kem : Nat) : EncapsulationKey Letter :=
  padded encapsulationKeyLen (.kemKey kem)

def encapsulate (key : EncapsulationKey Letter) (randomness : Nat) :
    Ciphertext Letter × SecretKey Letter :=
  (padded ciphertextLen (.kemCiphertext (code key.toList) randomness),
    padded keyLen (.kemShared (code key.toList) randomness))

/-- A ciphertext that was not made for the key gives an unrelated secret. -/
def decapsulate (kem : Nat) (ciphertext : Ciphertext Letter) : SecretKey Letter :=
  match ciphertext.head with
  | .kemCiphertext _ randomness =>
    if ciphertext = (encapsulate (encapsulationKey kem) randomness).1 then
      (encapsulate (encapsulationKey kem) randomness).2
    else padded keyLen (.kemRejected kem (code ciphertext.toList))
  | _ => padded keyLen (.kemRejected kem (code ciphertext.toList))

def hybrid : HybridPrimitives Letter Nat Nat where
  deriveKey
  encapsulationKey
  encapsulate
  decapsulate

theorem hybrid_encapsulationKey : hybrid.encapsulationKey = encapsulationKey := rfl

theorem hybrid_encapsulate : hybrid.encapsulate = encapsulate := rfl

theorem hybrid_decapsulate : hybrid.decapsulate = decapsulate := rfl

theorem encapsulationKey_inj {a b : Nat} : encapsulationKey a = encapsulationKey b ↔ a = b := by
  rw [encapsulationKey, encapsulationKey, padded_inj (by decide), Letter.kemKey.injEq]

theorem decapsulate_encapsulate (kem randomness : Nat) :
    decapsulate kem (encapsulate (encapsulationKey kem) randomness).1
      = (encapsulate (encapsulationKey kem) randomness).2 := by
  have hhead : (encapsulate (encapsulationKey kem) randomness).1.head
      = .kemCiphertext (code (encapsulationKey kem).toList) randomness :=
    padded_getElem_zero _ (by decide)
  rw [decapsulate, hhead]
  exact if_pos rfl

/-- Decapsulation gives what was encapsulated for the key, or an unrelated secret. -/
theorem decapsulate_cases (kem : Nat) (ciphertext : Ciphertext Letter) :
    (∃ randomness, decapsulate kem ciphertext
      = padded keyLen (.kemShared (code (encapsulationKey kem).toList) randomness)) ∨
    decapsulate kem ciphertext = padded keyLen (.kemRejected kem (code ciphertext.toList)) := by
  unfold decapsulate
  split
  · next randomness _ =>
    by_cases hmade : ciphertext = (encapsulate (encapsulationKey kem) randomness).1
    · rw [if_pos hmade]
      exact .inl ⟨randomness, rfl⟩
    · rw [if_neg hmade]
      exact .inr rfl
  · exact .inr rfl

theorem correctKem : CorrectKem hybrid := by
  intro kem randomness
  rw [hybrid_decapsulate, hybrid_encapsulate, hybrid_encapsulationKey, decapsulate_encapsulate]

/-! ## The key of a handshake -/

/-- What the extract phase of `derive_shared_key` gives. -/
def extractedKey (input : KeyInput Letter) : List Letter :=
  (hmac (input.transcript hybrid).toList (keyMaterial input.secrets)).toList

theorem sharedKey_slice (input : KeyInput Letter) : input.sharedKey primitives hybrid
    = slice (hmac (extractedKey input) (hybridInfo ++ [.byte 1])) 0 32 (by decide) :=
  hkdfBytes_of_le _ _ _ _ (by decide)

theorem sharedKey_eq (input : KeyInput Letter) : input.sharedKey primitives hybrid =
    padded 32 (.mac false (code (extractedKey input)) (code (hybridInfo ++ [.byte 1]))) := by
  rw [sharedKey_slice]
  exact slice_append_left (m := 32) (n := 32) _ _ _

theorem deriveKey_inj {context material context' material' : List Letter} :
    deriveKey context material = deriveKey context' material' ↔
      context = context' ∧ material = material' := by
  rw [deriveKey, deriveKey, padded_inj (by decide), Letter.digest.injEq, code_inj, code_inj]

theorem collisionFree : CollisionFree primitives hybrid Set.univ where
  deriveKey a _ b _ h := (deriveKey_inj.mp h).2
  hkdf a _ b _ h := by
    rw [sharedKey_eq, sharedKey_eq, half_inj] at h
    obtain ⟨hdigest, hmaterial⟩ := hmac_inj (Vector.toList_inj.mp h.2.1)
    exact ⟨hmaterial, Vector.toList_inj.mp hdigest⟩

/-- A shared key is no root key: the two infos differ in length. -/
theorem fresh_sharedKey (input : KeyInput Letter) :
    FreshSharedKey primitives (input.sharedKey primitives hybrid) := by
  intro root shared h
  rw [sharedKey_eq, expandRoot_eq, half_inj] at h
  have hlen := congrArg List.length h.2.2
  rw [List.length_append, List.length_append] at hlen
  have hinfo : (hybridInfo : List Letter).length = 24 ∧ (rootInfo : List Letter).length = 17 := by
    decide
  rw [hinfo.1, hinfo.2] at hlen
  cases hlen

/-! ## Honest exchanges -/

/-- Two honest parties: their private keys, what the initiator draws for this exchange, and
    their verifying keys, which are machine bytes. -/
structure Exchange where
  initiatorSign : Vector UInt8 32
  initiatorDh : Nat
  initiatorKem : Nat
  responderSign : Vector UInt8 32
  responderDh : Nat
  responderKem : Nat
  signedPrekey : Nat
  oneTimePrekey : Option Nat
  ephemeral : Nat
  randomness : Nat

/-- The public identity of a party. -/
def identityOf (sign : Vector UInt8 32) (dh kem : Nat) : IdentityPublic Letter where
  sign := sign.map .byte
  dh := publicKey primitives dh
  kem := encapsulationKey kem

namespace Exchange

def initiator (e : Exchange) : Initiator Letter Nat where
  identity := identityOf e.initiatorSign e.initiatorDh e.initiatorKem
  identityDh := e.initiatorDh

def responder (e : Exchange) : Responder Letter Nat Nat where
  identity := identityOf e.responderSign e.responderDh e.responderKem
  identityDh := e.responderDh
  kem := e.responderKem
  signedPrekey := e.signedPrekey
  oneTimePrekey := e.oneTimePrekey

def bundle (e : Exchange) : PrekeyBundle Letter := e.responder.bundle primitives

/-- The ciphertext and the KEM secret of the exchange. -/
def encapsulation (e : Exchange) : Ciphertext Letter × SecretKey Letter :=
  encapsulate e.bundle.identity.kem e.randomness

def message (e : Exchange) : InitialMessage Letter where
  ephemeral := publicKey primitives e.ephemeral
  kemCiphertext := e.encapsulation.1

def keyInput (e : Exchange) : KeyInput Letter :=
  e.initiator.keyInput primitives e.bundle e.ephemeral e.encapsulation

/-- The key that both sides derive. -/
def key (e : Exchange) : SecretKey Letter := e.keyInput.sharedKey primitives hybrid

end Exchange

/-- An exchange between parties whose private keys are all different. -/
def exchange : Exchange where
  initiatorSign := Vector.replicate 32 11
  initiatorDh := 1
  initiatorKem := 1
  responderSign := Vector.replicate 32 12
  responderDh := 2
  responderKem := 2
  signedPrekey := 3
  oneTimePrekey := some 4
  ephemeral := 5
  randomness := 6

end Symbolic
end Quietwire
