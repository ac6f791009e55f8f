/-
  Quietwire.Reference.PartySpec

  What the methods of `RatchetParty` do when nothing raises, in terms of the Rust
  types.
-/
import Quietwire.Reference.Bytes

namespace Quietwire
namespace Reference

open Transaction

variable {α σ label : Type}

section Lifting

variable {β γ : Type}

theorem orRaise_ok (b : β) : (orRaise (.ok b) : PartyM α σ label β) = pure b := rfl

theorem orElseRaise_some (b : β) (e : Exception) :
    (orElseRaise (some b) e : PartyM α σ label β) = pure b := rfl

end Lifting

namespace RatchetParty

variable [Octet α] {P : Primitives α σ} {r : RatchetParty α σ label}

theorem toList_toBytes (header : Header α) : header.toBytes.toList =
    header.ratchet.toList ++ (toLeBytes header.previousChainLen : Vector α 4).toList
      ++ (toLeBytes header.messageNumber : Vector α 4).toList := by
  rw [Header.toBytes, Vector.toList_append, Vector.toList_append]

/-- `encrypt` seals under the key of the sending chain, which moves on by one. -/
theorem encrypt_of_seal {header : Header α} {chainKey : Key α} {nonce : Nonce α}
    {plaintext : Plaintext α} {ciphertext : List α}
    (hratchet : header.ratchet = publicKey P r.ownRatchet)
    (hprevious : r.previousSendingLen = header.previousChainLen.toNat)
    (hsending : r.sending = some (chainKey.toList, header.messageNumber.toNat))
    (hseal : aeadSeal P (Quietwire.kdfChain P chainKey).1 nonce header.toBytes.toList
      plaintext.toList = .ok ciphertext) :
    r.encrypt P nonce.toList plaintext.toList = .ok (header.toBytes.toList ++ ciphertext)
      { r with sending := some ((Quietwire.kdfChain P chainKey).2.toList,
        header.messageNumber.toNat + 1) } := by
  have hheader : x25519Public P r.ownRatchet ++ (toLeBytes header.previousChainLen :
      Vector α 4).toList ++ (toLeBytes header.messageNumber : Vector α 4).toList
      = header.toBytes.toList := by
    rw [toList_toBytes, hratchet, x25519Public]
  have hsealed := xchachaSeal_toList hseal
  simp only [encrypt, get_bind, modify_bind, pure_bind_apply, hprevious, hsending,
    orElseRaise_some, orRaise_ok, toBytes4_toNat, kdfChain_toList, hheader, hsealed]
  rfl

variable [DecidableEq α]

/-- The party after a ratchet step to the key `own`. -/
def afterStep (r : RatchetParty α σ label) (own : σ) (root sending receiving : Key α)
    (remote : PublicKey α) : RatchetParty α σ label where
  rootKey := root.toList
  ownRatchet := own
  ratchetLabels := r.ratchetLabels.tail
  remoteRatchet := some remote.toList
  sending := some (sending.toList, 0)
  previousSendingLen := (r.sending.map Prod.snd).getD 0
  receiving := Function.update r.receiving remote.toList (some [receiving.toList])
  used := r.used

theorem ratchetStep_of_keys (standard : StandardHkdf P) (secret : label → σ)
    {rootKey middle root : SecretKey α} {receiving sending : Key α} {remote : PublicKey α}
    {next : label} (hroot : r.rootKey = rootKey.toList)
    (hlabel : r.ratchetLabels.head? = some next)
    (hreceiving : Quietwire.kdfRoot P rootKey r.ownRatchet remote = .ok (middle, receiving))
    (hsending : Quietwire.kdfRoot P middle (secret next) remote = .ok (root, sending)) :
    r.ratchetStep P secret remote.toList
      = .ok () (r.afterStep (secret next) root sending receiving remote) := by
  have hfirst := kdfRoot_toList standard hreceiving
  have hsecond := kdfRoot_toList standard hsending
  simp only [ratchetStep, startSending, get_bind, modify_bind, pure_bind_apply, hroot, hfirst,
    hsecond, hlabel, orElseRaise_some, orRaise_ok]
  rfl

theorem messageKey_of_keyList {ratchet : Bytes α} {start : Key α} {n : Nat}
    (hchain : r.receiving ratchet = some (keyList P start n)) (number : Nat) :
    r.messageKey P ratchet number = .ok (messageKeyAt P start number).toList
      { r with
        receiving := Function.update r.receiving ratchet
          (some (keyList P start (max n (number + 1)))) } := by
  have hget : (keyList P start (max n (number + 1)))[number]?
      = some (messageKeyAt P start number).toList := keyList_getElem? start (by omega)
  simp only [messageKey, get_bind, modify_bind, pure_bind_apply, hchain, messageKeyLoop_keyList,
    hget, orElseRaise_some, orRaise_ok]
  rfl

/-- The party after it has opened the message `number` of the chain of `ratchet`, which is now
    kept as `chain`. -/
def afterOpening (r : RatchetParty α σ label) (ratchet : Bytes α) (number : Nat)
    (chain : List (Bytes α)) : RatchetParty α σ label :=
  { r with
    receiving := Function.update r.receiving ratchet (some chain)
    used := (ratchet, number) :: r.used }

section Opening

variable {sealed : SealedFrame α} {plaintext : Plaintext α} {start : Key α} {n : Nat}
  (secret : label → σ)
  (hopens : Opens P (messageKeyAt P start (Header.parse sealed.frame).messageNumber.toNat) sealed
    plaintext)

include hopens

/-- A frame of a chain that was seen opens. -/
theorem decrypt_of_seen
    (hunused : ((Header.parse sealed.frame).ratchet.toList,
      (Header.parse sealed.frame).messageNumber.toNat) ∉ r.used)
    (hchain : r.receiving (Header.parse sealed.frame).ratchet.toList = some (keyList P start n)) :
    r.decrypt P secret sealed.nonce.toList sealed.frame.toList
      = .ok plaintext.toList (r.afterOpening (Header.parse sealed.frame).ratchet.toList
          (Header.parse sealed.frame).messageNumber.toNat
          (keyList P start (max n ((Header.parse sealed.frame).messageNumber.toNat + 1)))) := by
  obtain ⟨haad, hciphertext, hratchet, hnumber⟩ := frame_parts sealed
  have hmessageKey := messageKey_of_keyList hchain (Header.parse sealed.frame).messageNumber.toNat
  have hopened := xchachaOpen_toList hopens
  simp only [decrypt, hratchet, hnumber, get_bind, hchain, reduceCtorEq, if_false]
  simp only [haad, hciphertext, bind_of_ok hmessageKey, get_bind, hunused,
    if_false, modify_bind, hopened, orRaise_ok]
  rfl

/-- A frame of a chain that was not seen starts a ratchet step. -/
theorem decrypt_of_unseen {r' : RatchetParty α σ label}
    (hstep : r.ratchetStep P secret (Header.parse sealed.frame).ratchet.toList = .ok () r')
    (hunused : ((Header.parse sealed.frame).ratchet.toList,
      (Header.parse sealed.frame).messageNumber.toNat) ∉ r'.used)
    (hunseen : r.receiving (Header.parse sealed.frame).ratchet.toList = none)
    (hchain : r'.receiving (Header.parse sealed.frame).ratchet.toList = some (keyList P start n)) :
    r.decrypt P secret sealed.nonce.toList sealed.frame.toList
      = .ok plaintext.toList (r'.afterOpening (Header.parse sealed.frame).ratchet.toList
          (Header.parse sealed.frame).messageNumber.toNat
          (keyList P start (max n ((Header.parse sealed.frame).messageNumber.toNat + 1)))) := by
  obtain ⟨haad, hciphertext, hratchet, hnumber⟩ := frame_parts sealed
  have hmessageKey := messageKey_of_keyList hchain (Header.parse sealed.frame).messageNumber.toNat
  have hopened := xchachaOpen_toList hopens
  simp only [decrypt, hratchet, hnumber, get_bind, hunseen, if_true]
  simp only [haad, hciphertext, bind_of_ok hstep, bind_of_ok hmessageKey, get_bind, hunused,
    if_false, modify_bind, hopened, orRaise_ok]
  rfl

end Opening

end RatchetParty

end Reference
end Quietwire
