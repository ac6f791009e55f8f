/-
  Quietwire.Reference.Party

  The independent reference of the Double Ratchet, `RatchetParty` of
  `generate.py`: a Python object over byte strings of any length.  It keeps every
  receiving chain as the list of all its message keys so far, with the next chain
  key last, and it has no limits.

  A call that raises leaves the object as far as it got.  `secret` is the hash
  from labels to private keys.
-/
import Quietwire.Ratchet.Chain
import Mathlib.Algebra.Group.Nat.Defs

namespace Quietwire
namespace Reference

/-- The Python exceptions that a call can raise. -/
inductive Exception where
  | typeError
  | valueError
  | overflowError
  | indexError
  | keyError
  | assertionError
  | cryptoError
  deriving DecidableEq, Repr

/-- `bytes`. -/
abbrev Bytes (α : Type) := List α

section Functions

variable {α σ : Type} [Octet α] (P : Primitives α σ)

/-- `ROOT_INFO`. -/
def rootInfo : Bytes α := asciiBytes "QUIETWIRE-ROOT-v1"

/-- The `while` loop of `hkdf_sha512`; `bytes([counter])` takes no more than 255. -/
def hkdfLoop (prk info : Bytes α) (length : Nat) (block okm : Bytes α) (counter : Nat) :
    Except Exception (Bytes α) :=
  if okm.length < length then
    if 255 < counter then .error .valueError
    else
      let block := (P.hmac prk (block ++ info ++ [Octet.ofByte (UInt8.ofNat counter)])).toList
      hkdfLoop prk info length block (okm ++ block) (counter + 1)
  else .ok okm
termination_by length - okm.length
decreasing_by
  simp only [List.length_append, Vector.length_toList, hmacSha512Len]
  omega

def hkdfSha512 (ikm salt info : Bytes α) (length : Nat) : Except Exception (Bytes α) := do
  let prk := (P.hmac salt ikm).toList
  let okm ← hkdfLoop P prk info length [] [] 1
  return okm.take length

def x25519Public (privateKey : σ) : Bytes α := (publicKey P privateKey).toList

/-- A public key has 32 bytes, and a shared secret is not all zero. -/
def x25519 [DecidableEq α] (privateKey : σ) (public_ : Bytes α) :
    Except Exception (Bytes α) :=
  if h : public_.length = publicKeyLen then
    let shared := P.x25519 privateKey ⟨public_.toArray, by simpa using h⟩
    if shared = zeroBytes then .error .valueError else .ok shared.toList
  else .error .valueError

def kdfRoot [DecidableEq α] (rootKey : Bytes α) (own : σ) (remote : Bytes α) :
    Except Exception (Bytes α × Bytes α) := do
  let out ← hkdfSha512 P (← x25519 P own remote) rootKey rootInfo 64
  return (out.take 32, out.drop 32)

def kdfChain (chainKey : Bytes α) : Bytes α × Bytes α :=
  let derive := fun constant : UInt8 =>
    (P.hmac chainKey [Octet.ofByte constant]).toList.take 32
  (derive 0x01, derive 0x02)

omit [Octet α] in
/-- `crypto_aead_xchacha20poly1305_ietf_encrypt`. -/
def xchachaSeal (message aad nonce key : Bytes α) : Except Exception (Bytes α) :=
  if h : key.length = keyLen ∧ nonce.length = nonceLen then
    match P.aeadEncrypt ⟨key.toArray, by simpa using h.1⟩ ⟨nonce.toArray, by simpa using h.2⟩
        message aad with
    | some sealed => .ok sealed
    | none => .error .cryptoError
  else .error .cryptoError

omit [Octet α] in
/-- `crypto_aead_xchacha20poly1305_ietf_decrypt`. -/
def xchachaOpen (sealed aad nonce key : Bytes α) : Except Exception (Bytes α) :=
  if h : key.length = keyLen ∧ nonce.length = nonceLen then
    match P.aeadDecrypt ⟨key.toArray, by simpa using h.1⟩ ⟨nonce.toArray, by simpa using h.2⟩
        sealed aad with
    | some message => .ok message
    | none => .error .cryptoError
  else .error .cryptoError

/-- `n.to_bytes(4, "little")`. -/
def toBytes4 (n : Nat) : Except Exception (Bytes α) :=
  if n < 2 ^ 32 then
    .ok [Octet.ofByte (UInt8.ofNat n), Octet.ofByte (UInt8.ofNat (n / 256)),
      Octet.ofByte (UInt8.ofNat (n / 65536)), Octet.ofByte (UInt8.ofNat (n / 16777216))]
  else .error .overflowError

/-- `int.from_bytes(bytes, "little")`. -/
def fromBytes (bytes : Bytes α) : Nat :=
  bytes.foldr (fun b rest => (Octet.toByte b).toNat + 256 * rest) 0

/-- The `while` loop of `message_key`: the last entry of a chain is its chain key. -/
def messageKeyLoop (chain : List (Bytes α)) (number : Nat) :
    Except Exception (List (Bytes α)) :=
  if chain.length ≤ number + 1 then
    if h : chain = [] then .error .indexError
    else
      let next := kdfChain P (chain.getLast h)
      messageKeyLoop (chain.dropLast ++ [next.1, next.2]) number
  else .ok chain
termination_by number + 2 - chain.length
decreasing_by
  have hpos := List.length_pos_iff.mpr h
  simp only [List.length_append, List.length_dropLast, List.length_cons, List.length_nil]
  omega

end Functions

/-- The attributes of a `RatchetParty`. -/
structure RatchetParty (α σ label : Type) where
  rootKey : Bytes α
  ownRatchet : σ
  ratchetLabels : List label
  remoteRatchet : Option (Bytes α)
  sending : Option (Bytes α × Nat)
  previousSendingLen : Nat
  receiving : Bytes α → Option (List (Bytes α))
  used : List (Bytes α × Nat)

/-- Method calls on a `RatchetParty`. -/
abbrev PartyM (α σ label : Type) := EStateM Exception (RatchetParty α σ label)

section Lifting

variable {α σ label β : Type}

/-- A call of a function that may raise. -/
def orRaise (result : Except Exception β) : PartyM α σ label β :=
  match result with
  | .ok b => pure b
  | .error e => throw e

/-- A lookup that raises `e` if it finds nothing. -/
def orElseRaise (value : Option β) (e : Exception) : PartyM α σ label β :=
  match value with
  | some b => pure b
  | none => throw e

end Lifting

namespace RatchetParty

variable {α σ label : Type} [DecidableEq α] [Octet α] (P : Primitives α σ) (secret : label → σ)

omit [DecidableEq α] [Octet α] in
/-- `__init__`. -/
def new (rootKey : Bytes α) (ownRatchet : σ) (ratchetLabels : List label) :
    RatchetParty α σ label where
  rootKey
  ownRatchet
  ratchetLabels
  remoteRatchet := none
  sending := none
  previousSendingLen := 0
  receiving := fun _ => none
  used := []

def startSending (remote : Bytes α) : PartyM α σ label Unit := do
  let self ← get
  let (rootKey, chainKey) ← orRaise (kdfRoot P self.rootKey self.ownRatchet remote)
  modify fun self => { self with rootKey }
  modify fun self => { self with sending := some (chainKey, 0) }
  modify fun self => { self with remoteRatchet := some remote }

omit [DecidableEq α] in
def encrypt (nonce plaintext : Bytes α) : PartyM α σ label (Bytes α) := do
  let self ← get
  let (chainKey, number) ← orElseRaise self.sending .typeError
  let (messageKey, nextChainKey) := kdfChain P chainKey
  modify fun self => { self with sending := some (nextChainKey, number) }
  modify fun self => { self with sending := some (nextChainKey, number + 1) }
  let previous ← orRaise (toBytes4 self.previousSendingLen)
  let numberBytes ← orRaise (toBytes4 number)
  let header := x25519Public P self.ownRatchet ++ previous ++ numberBytes
  let sealed ← orRaise (xchachaSeal P plaintext header nonce messageKey)
  return header ++ sealed

def ratchetStep (remote : Bytes α) : PartyM α σ label Unit := do
  let self ← get
  let (rootKey, chainKey) ← orRaise (kdfRoot P self.rootKey self.ownRatchet remote)
  modify fun self => { self with rootKey }
  modify fun self =>
    { self with receiving := Function.update self.receiving remote (some [chainKey]) }
  modify fun self => { self with previousSendingLen := (self.sending.map Prod.snd).getD 0 }
  let next ← orElseRaise self.ratchetLabels.head? .indexError
  modify fun self => { self with ratchetLabels := self.ratchetLabels.tail }
  modify fun self => { self with ownRatchet := secret next }
  startSending P remote

def messageKey (ratchet : Bytes α) (number : Nat) : PartyM α σ label (Bytes α) := do
  let self ← get
  let chain ← orElseRaise (self.receiving ratchet) .keyError
  let chain ← orRaise (messageKeyLoop P chain number)
  modify fun self => { self with receiving := Function.update self.receiving ratchet (some chain) }
  orElseRaise chain[number]? .indexError

def decrypt (nonce frame : Bytes α) : PartyM α σ label (Bytes α) := do
  let header := frame.take 40
  let sealed := frame.drop 40
  let ratchet := header.take 32
  let number := fromBytes ((header.take 40).drop 36)
  let self ← get
  if self.receiving ratchet = none then
    ratchetStep P secret ratchet
  let messageKey ← messageKey P ratchet number
  let self ← get
  if (ratchet, number) ∈ self.used then
    throw .assertionError
  modify fun self => { self with used := (ratchet, number) :: self.used }
  orRaise (xchachaOpen P sealed header nonce messageKey)

end RatchetParty

end Reference
end Quietwire
