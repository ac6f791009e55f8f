/-
  Quietwire.Ratchet.Session

  One side of a Double Ratchet session and its two operations.  The operations
  run in `SessionM`, which keeps the state a failing operation has reached:
  nothing here rolls a session back, so that whether a failed call leaves it as
  it was is a theorem and not a property of the encoding.
-/
import Quietwire.Ratchet.Skipped

namespace Quietwire

structure Session (α σ : Type) where
  rootKey : SecretKey α
  ownRatchet : σ
  remoteRatchet : Option (PublicKey α)
  sending : Option (Chain α)
  receiving : Option (Chain α)
  previousSendingLen : UInt32
  skipped : SkippedKeys α

/-- How an operation stops without a result: it returns an error, or it panics. -/
inductive Failure where
  | error (error : Error)
  | panic
  deriving DecidableEq, Repr

/-- Operations on `&mut Session`. -/
abbrev SessionM (α σ : Type) := EStateM Failure (Session α σ)

section Lifting

variable {α σ β : Type}

/-- The `?` operator on a `Result<_, ratchet::Error>`. -/
def orFail (result : Except Error β) : SessionM α σ β :=
  match result with
  | .ok b => pure b
  | .error e => throw (.error e)

/-- The `?` operator on a `Result<_, quietwire_crypto::Error>`. -/
def orFailCrypto (result : Except CryptoError β) : SessionM α σ β := orFail (liftCrypto result)

/-- `copy_from_slice` into an array of `n` bytes, which panics on any other length. -/
def copyFromSlice (n : Nat) (bytes : List β) : SessionM α σ (Vector β n) :=
  if h : bytes.length = n then pure ⟨bytes.toArray, by simpa using h⟩
  else throw .panic

/-- An index expression, which panics out of range. -/
def orPanic (value : Option β) : SessionM α σ β :=
  match value with
  | some b => pure b
  | none => throw .panic

end Lifting

variable {α σ : Type} [DecidableEq α] [Octet α] (P : Primitives α σ)

omit [DecidableEq α] in
/-- Opens a frame under a message key; the header is the associated data. -/
def openFrame (messageKey : Key α) (sealed : SealedFrame α) : SessionM α σ (Plaintext α) := do
  let key ← orFailCrypto (SecretKey.fromSlice messageKey.toList)
  let opened ← orFailCrypto
    (aeadOpen P key sealed.nonce sealed.aad.toList sealed.ciphertext.toList)
  copyFromSlice plaintextLen opened

namespace Session

def initiatorWith (sharedKey : SecretKey α) (remoteRatchet : PublicKey α) (ownRatchet : σ) :
    Except Error (Session α σ) := do
  let (rootKey, sending) ← kdfRoot P sharedKey ownRatchet remoteRatchet
  let sending ← Chain.start sending
  return {
    rootKey
    ownRatchet
    remoteRatchet := some remoteRatchet
    sending := some sending
    receiving := none
    previousSendingLen := 0
    skipped := [] }

/-- `generated` is the outcome of `PrivateKey::generate`. -/
def initiator (sharedKey : SecretKey α) (remoteRatchet : PublicKey α)
    (generated : Except CryptoError σ) : Except Error (Session α σ) := do
  initiatorWith P sharedKey remoteRatchet (← liftCrypto generated)

omit [DecidableEq α] [Octet α] in
def responder (sharedKey : SecretKey α) (signedPrekey : σ) : Session α σ where
  rootKey := sharedKey
  ownRatchet := signedPrekey
  remoteRatchet := none
  sending := none
  receiving := none
  previousSendingLen := 0
  skipped := []

omit [DecidableEq α] in
def encryptWith (nonce : Nonce α) (plaintext : Plaintext α) :
    SessionM α σ (SealedFrame α) := do
  let self ← get
  match self.sending with
  | none => throw (.error .sendingBlocked)
  | some chain =>
    if chain.next ≥ chainLimit then
      throw (.error .sendingBlocked)
    let header : Header α := {
      ratchet := publicKey P self.ownRatchet
      previousChainLen := self.previousSendingLen
      messageNumber := chain.next }
    let (messageKey, cursor) := (Cursor.at chain).nextMessageKey P
    let messageKey ← orFailCrypto (SecretKey.fromSlice messageKey.toList)
    let sealed ← orFailCrypto
      (aeadSeal P messageKey nonce header.toBytes.toList plaintext.toList)
    let ciphertext ← copyFromSlice (plaintextLen + tagLen) sealed
    let next ← orFail cursor.intoChain
    modify fun self => { self with sending := some next }
    return SealedFrame.assemble nonce header ciphertext

omit [DecidableEq α] in
/-- `random` is the outcome of `Nonce::random`. -/
def encrypt (random : Except CryptoError (Nonce α)) (plaintext : Plaintext α) :
    SessionM α σ (SealedFrame α) := do
  encryptWith P (← orFailCrypto random) plaintext

def decryptInReceivingChain (header : Header α) (sealed : SealedFrame α) :
    SessionM α σ (Plaintext α) := do
  let self ← get
  match self.receiving with
  | none => throw (.error (.crypto .authentication))
  | some chain =>
    let (messageKey, cursor) ← orFail ((Cursor.at chain).messageKey P header.messageNumber)
    let plaintext ← openFrame P messageKey sealed
    modify fun self =>
      { self with skipped := self.skipped.extend header.ratchet cursor.takeSkipped }
    let receiving ← orFail cursor.intoChain
    modify fun self => { self with receiving := some receiving }
    return plaintext

omit [DecidableEq α] in
/-- `self.receiving.as_ref().map(Cursor::at)`, moved to the length that the header
    gives the previous chain. -/
def closeReceiving (receiving : Option (Chain α)) (previousChainLen : UInt32) :
    SessionM α σ (Option (Cursor α)) :=
  match receiving with
  | none => pure none
  | some chain => do
    let cursor ← orFail ((Cursor.at chain).skipTo P previousChainLen)
    return some cursor

omit [Octet α] in
/-- Stores what is missing from the previous receiving chain, if there was one. -/
def storePrevious (previous : Option (Cursor α)) (remoteRatchet : Option (PublicKey α)) :
    SessionM α σ Unit :=
  match previous, remoteRatchet with
  | some previous, some remote =>
    modify fun self => { self with skipped := self.skipped.extend remote previous.takeSkipped }
  | _, _ => pure ()

/-- `nextRatchet` is what the caller's closure returns if it is called. -/
def decryptAfterRatchetStep (header : Header α) (sealed : SealedFrame α)
    (nextRatchet : Except CryptoError σ) : SessionM α σ (Plaintext α) := do
  let self ← get
  let previous ← closeReceiving P self.receiving header.previousChainLen
  let (rootKey, receiving) ← orFail (kdfRoot P self.rootKey self.ownRatchet header.ratchet)
  let ownRatchet ← orFailCrypto nextRatchet
  let (rootKey, sending) ← orFail (kdfRoot P rootKey ownRatchet header.ratchet)
  let (messageKey, cursor) ← orFail ((Cursor.new receiving).messageKey P header.messageNumber)
  let plaintext ← openFrame P messageKey sealed
  storePrevious previous self.remoteRatchet
  modify fun self =>
    { self with skipped := self.skipped.extend header.ratchet cursor.takeSkipped }
  modify fun self => { self with rootKey }
  modify fun self => { self with ownRatchet }
  modify fun self => { self with remoteRatchet := some header.ratchet }
  modify fun self =>
    { self with previousSendingLen := (self.sending.map Chain.next).getD 0 }
  let sending ← orFail (Chain.start sending)
  modify fun self => { self with sending := some sending }
  let receiving ← orFail cursor.intoChain
  modify fun self => { self with receiving := some receiving }
  return plaintext

def decryptWith (sealed : SealedFrame α) (nextRatchet : Except CryptoError σ) :
    SessionM α σ (Plaintext α) := do
  let header := Header.parse sealed.frame
  let self ← get
  match self.skipped.position header with
  | some index =>
    let key ← orPanic (self.skipped.key index)
    let plaintext ← openFrame P key sealed
    modify fun self => { self with skipped := self.skipped.remove index }
    return plaintext
  | none =>
    if self.remoteRatchet = some header.ratchet then
      decryptInReceivingChain P header sealed
    else
      decryptAfterRatchetStep P header sealed nextRatchet

/-- `generated` is the outcome of `PrivateKey::generate`, if it is called. -/
def decrypt (sealed : SealedFrame α) (generated : Except CryptoError σ) :
    SessionM α σ (Plaintext α) :=
  decryptWith P sealed generated

end Session

end Quietwire
