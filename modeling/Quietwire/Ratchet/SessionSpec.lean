/-
  Quietwire.Ratchet.SessionSpec

  What the two session operations do, stated once: an inversion of every
  successful `encrypt_with` (`Sealed`) and `decrypt_with` (`Decrypted`, one
  constructor for each of the three ways a frame can open), and the atomicity of
  both.  No later proof unfolds an operation.
-/
import Quietwire.Support.Transaction
import Quietwire.Ratchet.Session

namespace Quietwire

open Transaction

section Lifting

variable {α σ β : Type}

@[simp] theorem orFail_eq_ok_iff (result : Except Error β) (s s' : Session α σ) (b : β) :
    orFail result s = .ok b s' ↔ result = .ok b ∧ s' = s := by
  cases result with
  | ok c => simp [orFail, eq_comm]
  | error e => simp [orFail]

@[simp] theorem orFailCrypto_eq_ok_iff (result : Except CryptoError β) (s s' : Session α σ)
    (b : β) : orFailCrypto result s = .ok b s' ↔ result = .ok b ∧ s' = s := by
  cases result with
  | ok c => simp [orFailCrypto]
  | error e => simp [orFailCrypto]

@[simp] theorem copyFromSlice_eq_ok_iff (n : Nat) (bytes : List β) (s s' : Session α σ)
    (v : Vector β n) : copyFromSlice n bytes s = .ok v s' ↔ bytes = v.toList ∧ s' = s := by
  unfold copyFromSlice
  split
  case isTrue h =>
    simp only [pure_eq_ok_iff]
    refine and_congr ⟨?_, ?_⟩ eq_comm
    · rintro rfl
      rfl
    · rintro rfl
      rfl
  case isFalse h =>
    simp only [throw_ne_ok, false_iff, not_and]
    rintro rfl
    exact absurd (by simp) h

@[simp] theorem orPanic_eq_ok_iff (value : Option β) (s s' : Session α σ) (b : β) :
    orPanic value s = .ok b s' ↔ value = some b ∧ s' = s := by
  cases value with
  | some c => simp [orPanic, eq_comm]
  | none => simp [orPanic]

theorem readOnly_orFail (result : Except Error β) :
    ReadOnly (orFail result : SessionM α σ β) := by
  cases result with
  | ok b => exact readOnly_pure b
  | error e => exact readOnly_throw _

theorem readOnly_orFailCrypto (result : Except CryptoError β) :
    ReadOnly (orFailCrypto result : SessionM α σ β) := readOnly_orFail _

theorem readOnly_copyFromSlice (n : Nat) (bytes : List β) :
    ReadOnly (copyFromSlice n bytes : SessionM α σ (Vector β n)) := by
  unfold copyFromSlice
  split
  · exact readOnly_pure _
  · exact readOnly_throw _

theorem readOnly_orPanic (value : Option β) :
    ReadOnly (orPanic value : SessionM α σ β) := by
  cases value with
  | some b => exact readOnly_pure b
  | none => exact readOnly_throw _

theorem total_orFail_ok (b : β) : Total (orFail (.ok b) : SessionM α σ β) := total_pure b

end Lifting

/-! ## The late conversions cannot fail -/

section Conversions

variable {α : Type}

@[simp] theorem Chain.start_eq (key : Key α) : Chain.start key = .ok { key, next := 0 } := by
  rw [Chain.start, SecretKey.fromSlice_toList]
  rfl

@[simp] theorem Cursor.intoChain_eq (cursor : Cursor α) :
    cursor.intoChain = .ok { key := cursor.key, next := cursor.next } := by
  rw [Cursor.intoChain, SecretKey.fromSlice_toList]
  rfl

end Conversions

section Opening

variable {α σ : Type} (P : Primitives α σ)

/-! ## Opening a frame under a key -/

/-- The AEAD opens the frame under `key` to `plaintext`. -/
def Opens (key : Key α) (sealed : SealedFrame α) (plaintext : Plaintext α) : Prop :=
  aeadOpen P key sealed.nonce sealed.aad.toList sealed.ciphertext.toList = .ok plaintext.toList

variable {P} in
theorem Opens.unique {key : Key α} {sealed : SealedFrame α} {plaintext₁ plaintext₂ : Plaintext α}
    (h₁ : Opens P key sealed plaintext₁) (h₂ : Opens P key sealed plaintext₂) :
    plaintext₁ = plaintext₂ :=
  Vector.toList_inj.mp (Except.ok.inj (h₁.symm.trans h₂))

@[simp] theorem openFrame_eq_ok_iff (key : Key α) (sealed : SealedFrame α)
    (plaintext : Plaintext α) (s s' : Session α σ) :
    openFrame P key sealed s = .ok plaintext s' ↔ Opens P key sealed plaintext ∧ s' = s := by
  simp only [openFrame, bind_eq_ok_iff, orFailCrypto_eq_ok_iff, SecretKey.fromSlice_toList,
    copyFromSlice_eq_ok_iff, Opens]
  constructor
  · rintro ⟨_, _, ⟨⟨⟩, rfl⟩, _, _, ⟨hopen, rfl⟩, rfl, rfl⟩
    exact ⟨hopen, rfl⟩
  · rintro ⟨hopen, rfl⟩
    exact ⟨_, _, ⟨rfl, rfl⟩, _, _, ⟨hopen, rfl⟩, rfl, rfl⟩

theorem readOnly_openFrame (key : Key α) (sealed : SealedFrame α) :
    ReadOnly (openFrame P key sealed : SessionM α σ (Plaintext α)) :=
  (readOnly_orFailCrypto _).bind fun _ => (readOnly_orFailCrypto _).bind fun _ =>
    readOnly_copyFromSlice _ _

end Opening

variable {α σ : Type} [Octet α] (P : Primitives α σ)

namespace Session

/-! ## encrypt_with -/

/-- The header of the next frame of a session whose sending chain is `chain`. -/
def nextHeader (s : Session α σ) (chain : Chain α) : Header α where
  ratchet := publicKey P s.ownRatchet
  previousChainLen := s.previousSendingLen
  messageNumber := chain.next

/-- A successful `encrypt_with`: the frame is sealed under the message key of the
    sending chain, which moves on by one. -/
structure Sealed (nonce : Nonce α) (plaintext : Plaintext α) (s : Session α σ)
    (sealed : SealedFrame α) (s' : Session α σ) (chain : Chain α) : Prop where
  sending : s.sending = some chain
  belowLimit : chain.next.toNat < 2000
  nonce_eq : sealed.nonce = nonce
  header : Header.parse sealed.frame = s.nextHeader P chain
  aad : sealed.aad = (s.nextHeader P chain).toBytes
  sealing : aeadSeal P (kdfChain P chain.key).1 nonce sealed.aad.toList plaintext.toList
    = .ok sealed.ciphertext.toList
  after : s' = { s with
    sending := some { key := (kdfChain P chain.key).2, next := chain.next + 1 } }

theorem encryptWith_eq_ok_iff (nonce : Nonce α) (plaintext : Plaintext α)
    (s s' : Session α σ) (sealed : SealedFrame α) :
    encryptWith P nonce plaintext s = .ok sealed s' ↔
      ∃ chain, Sealed P nonce plaintext s sealed s' chain := by
  rw [encryptWith, get_bind]
  constructor
  · intro hrun
    cases hsending : s.sending with
    | none =>
      rw [hsending] at hrun
      exact absurd hrun (throw_ne_ok _ _ _ _)
    | some chain =>
      simp only [hsending] at hrun
      by_cases hlimit : chain.next ≥ chainLimit
      · simp [hlimit, bind_eq_ok_iff] at hrun
      · simp only [hlimit, if_false, bind_eq_ok_iff, orFailCrypto_eq_ok_iff,
          SecretKey.fromSlice_toList, copyFromSlice_eq_ok_iff, orFail_eq_ok_iff,
          Cursor.intoChain_eq, modify_eq_ok_iff, pure_eq_ok_iff, Except.ok.injEq] at hrun
        -- every call succeeded, so the frame is the one that was assembled
        obtain ⟨_, _, ⟨rfl, rfl⟩, _, _, ⟨hseal, rfl⟩, ciphertext, _, ⟨rfl, rfl⟩, _, _, ⟨rfl, rfl⟩,
          _, _, rfl, rfl, rfl⟩ := hrun
        refine ⟨chain, hsending, ?_, rfl, ?_, ?_, ?_, rfl⟩
        · rw [ge_iff_le, UInt32.le_iff_toNat_le, chainLimit_toNat] at hlimit
          omega
        · exact SealedFrame.parse_assemble _ _ _
        · exact SealedFrame.assemble_aad _ _ _
        · rw [SealedFrame.assemble_aad, SealedFrame.assemble_ciphertext]
          exact hseal
  · rintro ⟨chain, h⟩
    have hlimit : ¬ chain.next ≥ chainLimit := by
      rw [ge_iff_le, UInt32.le_iff_toNat_le, chainLimit_toNat]
      have := h.belowLimit
      omega
    -- a frame is its nonce, its header and its ciphertext
    have hframe : sealed = SealedFrame.assemble nonce (s.nextHeader P chain) sealed.ciphertext :=
      SealedFrame.ext_parts h.nonce_eq (by rw [SealedFrame.assemble_aad, h.aad])
        (SealedFrame.assemble_ciphertext _ _ _).symm
    have hseal := h.sealing
    rw [h.aad] at hseal
    simp only [h.sending, hlimit, if_false, bind_eq_ok_iff, orFailCrypto_eq_ok_iff,
      SecretKey.fromSlice_toList, copyFromSlice_eq_ok_iff, orFail_eq_ok_iff, Cursor.intoChain_eq,
      modify_eq_ok_iff, pure_eq_ok_iff, Except.ok.injEq]
    exact ⟨_, _, ⟨rfl, rfl⟩, _, _, ⟨hseal, rfl⟩, _, _, ⟨rfl, rfl⟩, _, _, ⟨rfl, rfl⟩, ⟨⟩, _, rfl,
      hframe.symm, h.after.symm⟩

end Session

/-! ## decrypt_with -/

variable [DecidableEq α]

namespace Session

/-- The message keys missing from the receiving chain, up to the length the header gives
    it, in the order in which they are stored. -/
def missing (s : Session α σ) (header : Header α) : SkippedKeys α :=
  match s.receiving, s.remoteRatchet with
  | some chain, some remote =>
    SkippedKeys.entries remote (messageKeysFrom P chain.key chain.next.toNat
      (header.previousChainLen.toNat - chain.next.toNat))
  | _, _ => []

/-- The store once the keys missing from the receiving chain have been moved there. -/
def closePrevious (s : Session α σ) (header : Header α) : SkippedKeys α :=
  match s.receiving, s.remoteRatchet with
  | some chain, some remote =>
    s.skipped.extend remote (messageKeysFrom P chain.key chain.next.toNat
      (header.previousChainLen.toNat - chain.next.toNat))
  | _, _ => s.skipped

theorem closePrevious_sublist (s : Session α σ) (header : Header α) :
    (s.closePrevious P header).Sublist (s.skipped ++ s.missing P header) := by
  unfold closePrevious missing
  split
  · exact SkippedKeys.extend_sublist _ _ _
  · rw [List.append_nil]

/-- Closing a chain evicts nothing from a store that stays within one chain's share. -/
theorem closePrevious_of_length_le (s : Session α σ) (header : Header α)
    (hlen : s.skipped.length + (s.missing P header).length ≤ 1000) :
    s.closePrevious P header = s.skipped ++ s.missing P header := by
  unfold closePrevious missing at *
  split at hlen
  · exact SkippedKeys.extend_of_length_le _ _ _ (by simpa using hlen)
  · rw [List.append_nil]

omit [DecidableEq α] in
/-- The message keys between a receiving chain that stands at `chain` and the frame with
    this header, as they are stored. -/
def overtaken (header : Header α) (chain : Chain α) : SkippedKeys α :=
  SkippedKeys.entries header.ratchet (messageKeysFrom P chain.key chain.next.toNat
    (header.messageNumber.toNat - chain.next.toNat))

/-- The session after the frame with this header was opened in a receiving chain
    that stands at `chain`. -/
def advanceReceiving (s : Session α σ) (header : Header α) (chain : Chain α) : Session α σ :=
  let ahead := header.messageNumber.toNat - chain.next.toNat
  { s with
    skipped := s.skipped.extend header.ratchet
      (messageKeysFrom P chain.key chain.next.toNat ahead)
    receiving := some
      { key := chainKeyAt P chain.key (ahead + 1), next := header.messageNumber + 1 } }

theorem advanceReceiving_sublist (s : Session α σ) (header : Header α) (chain : Chain α) :
    (s.advanceReceiving P header chain).skipped.Sublist
      (s.skipped ++ overtaken P header chain) :=
  SkippedKeys.extend_sublist _ _ _

/-- Moving on in a chain evicts nothing from a store that stays within one chain's share. -/
theorem advanceReceiving_of_length_le (s : Session α σ) (header : Header α) (chain : Chain α)
    (hlen : s.skipped.length + (overtaken P header chain).length ≤ 1000) :
    (s.advanceReceiving P header chain).skipped = s.skipped ++ overtaken P header chain :=
  SkippedKeys.extend_of_length_le _ _ _ (by simpa [overtaken] using hlen)

/-- The session after a ratchet step to `own`, before anything is read from the new
    receiving chain. -/
def afterStep (s : Session α σ) (header : Header α) (own : σ) (rootKey : SecretKey α)
    (sending : Key α) : Session α σ :=
  { s with
    rootKey
    ownRatchet := own
    remoteRatchet := some header.ratchet
    sending := some { key := sending, next := 0 }
    previousSendingLen := (s.sending.map Chain.next).getD 0
    skipped := s.closePrevious P header }

/-- What a ratchet step and the frame that caused it leave in the store. -/
theorem afterStep_sublist (s : Session α σ) (header : Header α) (own : σ) (rootKey : SecretKey α)
    (sending : Key α) (chain : Chain α) :
    ((s.afterStep P header own rootKey sending).advanceReceiving P header chain).skipped.Sublist
      (s.skipped ++ (s.missing P header ++ overtaken P header chain)) := by
  rw [← List.append_assoc]
  exact (advanceReceiving_sublist P _ _ _).trans ((closePrevious_sublist P _ _).append_right _)

/-- A successful `decrypt_with`, by the path it took: the plaintext, the message key
    the frame opened under and the session left behind. -/
inductive Decrypted (s : Session α σ) (sealed : SealedFrame α)
    (nextRatchet : Except CryptoError σ) : Plaintext α → Key α → Session α σ → Prop
  | skipped {plaintext : Plaintext α} {older newer : SkippedKeys α} {entry : SkippedKey α}
      (store : s.skipped = older ++ entry :: newer)
      (found : SkippedKey.isFor (Header.parse sealed.frame) entry)
      (first : ∀ e ∈ older, ¬ SkippedKey.isFor (Header.parse sealed.frame) e)
      (opens : Opens P entry.key sealed plaintext) :
      Decrypted s sealed nextRatchet plaintext entry.key { s with skipped := older ++ newer }
  | current {plaintext : Plaintext α} {chain : Chain α}
      (missing : s.skipped.position (Header.parse sealed.frame) = none)
      (remote : s.remoteRatchet = some (Header.parse sealed.frame).ratchet)
      (receiving : s.receiving = some chain)
      (belowLimit : (Header.parse sealed.frame).messageNumber.toNat < 2000)
      (notPassed : chain.next.toNat ≤ (Header.parse sealed.frame).messageNumber.toNat)
      (near : (Header.parse sealed.frame).messageNumber.toNat - chain.next.toNat ≤ 1000)
      (opens : Opens P (messageKeyAt P chain.key
        ((Header.parse sealed.frame).messageNumber.toNat - chain.next.toNat)) sealed plaintext) :
      Decrypted s sealed nextRatchet plaintext
        (messageKeyAt P chain.key
          ((Header.parse sealed.frame).messageNumber.toNat - chain.next.toNat))
        (s.advanceReceiving P (Header.parse sealed.frame) chain)
  | step {plaintext : Plaintext α} {own : σ} {middle root : SecretKey α}
      {receiving sending : Key α}
      (missing : s.skipped.position (Header.parse sealed.frame) = none)
      (remote : s.remoteRatchet ≠ some (Header.parse sealed.frame).ratchet)
      (closes : ∀ chain, s.receiving = some chain →
        (Header.parse sealed.frame).previousChainLen.toNat ≤ 2000 ∧
          (Header.parse sealed.frame).previousChainLen.toNat - chain.next.toNat ≤ 1000)
      (receivingKeys : kdfRoot P s.rootKey s.ownRatchet (Header.parse sealed.frame).ratchet
        = .ok (middle, receiving))
      (generated : nextRatchet = .ok own)
      (sendingKeys : kdfRoot P middle own (Header.parse sealed.frame).ratchet
        = .ok (root, sending))
      (near : (Header.parse sealed.frame).messageNumber.toNat ≤ 1000)
      (opens : Opens P (messageKeyAt P receiving
        (Header.parse sealed.frame).messageNumber.toNat) sealed plaintext) :
      Decrypted s sealed nextRatchet plaintext
        (messageKeyAt P receiving (Header.parse sealed.frame).messageNumber.toNat)
        ((s.afterStep P (Header.parse sealed.frame) own root sending).advanceReceiving P
          (Header.parse sealed.frame) { key := receiving, next := 0 })

theorem decryptInReceivingChain_eq_ok_iff (header : Header α) (sealed : SealedFrame α)
    (s s' : Session α σ) (plaintext : Plaintext α) :
    decryptInReceivingChain P header sealed s = .ok plaintext s' ↔
      ∃ chain, s.receiving = some chain ∧ header.messageNumber.toNat < 2000 ∧
        chain.next.toNat ≤ header.messageNumber.toNat ∧
        header.messageNumber.toNat - chain.next.toNat ≤ 1000 ∧
        Opens P (messageKeyAt P chain.key (header.messageNumber.toNat - chain.next.toNat))
          sealed plaintext ∧
        s' = s.advanceReceiving P header chain := by
  rw [decryptInReceivingChain, get_bind]
  cases hreceiving : s.receiving with
  | none => simp
  | some chain =>
    simp only [bind_eq_ok_iff, orFail_eq_ok_iff, openFrame_eq_ok_iff, modify_eq_ok_iff,
      Cursor.intoChain_eq, pure_eq_ok_iff, Except.ok.injEq, Option.some.injEq]
    constructor
    -- the state is written twice, the store before the chain
    · rintro ⟨⟨messageKey, cursor⟩, _, ⟨hkey, rfl⟩, _, _, ⟨hopens, rfl⟩, _, _, rfl, _, _,
        ⟨rfl, rfl⟩, _, _, rfl, rfl, rfl⟩
      obtain ⟨hlimit, hpassed, hnear, rfl, rfl⟩ :=
        (Cursor.messageKey_eq_ok_iff P _ _ _ _).mp hkey
      exact ⟨chain, rfl, hlimit, hpassed, hnear, hopens, rfl⟩
    · rintro ⟨_, rfl, hlimit, hpassed, hnear, hopens, rfl⟩
      exact ⟨(_, _), s, ⟨(Cursor.messageKey_eq_ok_iff P (Cursor.at chain) _ _ _).mpr
        ⟨hlimit, hpassed, hnear, rfl, rfl⟩, rfl⟩, _, _, ⟨hopens, rfl⟩, ⟨⟩, _, rfl, _, _,
        ⟨rfl, rfl⟩, ⟨⟩, _, rfl, rfl, rfl⟩

omit [DecidableEq α] in
theorem closeReceiving_eq_ok_iff (receiving : Option (Chain α)) (previousChainLen : UInt32)
    (s s' : Session α σ) (previous : Option (Cursor α)) :
    closeReceiving P receiving previousChainLen s = .ok previous s' ↔
      (∀ chain, receiving = some chain → previousChainLen.toNat ≤ 2000 ∧
        previousChainLen.toNat - chain.next.toNat ≤ 1000) ∧
      previous = receiving.map (fun chain => (Cursor.at chain).skipWhile P previousChainLen) ∧
      s' = s := by
  cases receiving with
  | none => simp [closeReceiving, eq_comm]
  | some chain =>
    simp only [closeReceiving, bind_eq_ok_iff, orFail_eq_ok_iff, pure_eq_ok_iff,
      Cursor.skipTo_eq_ok_iff, Option.map_some, Option.some.injEq, forall_eq']
    constructor
    · rintro ⟨cursor, _, ⟨⟨hlimit, hnear, rfl⟩, rfl⟩, rfl, rfl⟩
      exact ⟨⟨hlimit, hnear⟩, rfl, rfl⟩
    · rintro ⟨⟨hlimit, hnear⟩, rfl, rfl⟩
      exact ⟨_, _, ⟨⟨hlimit, hnear, rfl⟩, rfl⟩, rfl, rfl⟩

omit [Octet α] in
theorem storePrevious_eq_ok_iff (previous : Option (Cursor α)) (remote : Option (PublicKey α))
    (s s' : Session α σ) (u : Unit) :
    storePrevious previous remote s = .ok u s' ↔
      s' = { s with
        skipped := match previous, remote with
          | some previous, some remote => s.skipped.extend remote previous.takeSkipped
          | _, _ => s.skipped } := by
  have hkeep : (pure () : SessionM α σ Unit) s = .ok u s' ↔ s' = s := by
    simp only [pure_eq_ok_iff, true_and]
    exact eq_comm
  cases previous with
  | none => exact hkeep
  | some previous =>
    cases remote with
    | none => exact hkeep
    | some remote => exact modify_eq_ok_iff _ _ _ _

/-- Storing what `closeReceiving` collected closes the previous chain. -/
theorem closePrevious_eq (s : Session α σ) (header : Header α) :
    (match s.receiving.map (fun chain =>
        (Cursor.at chain).skipWhile P header.previousChainLen), s.remoteRatchet with
      | some previous, some remote => s.skipped.extend remote previous.takeSkipped
      | _, _ => s.skipped) = s.closePrevious P header := by
  unfold closePrevious
  cases s.receiving with
  | none => rfl
  | some chain =>
    cases s.remoteRatchet with
    | none => rfl
    | some remote =>
      simp only [Option.map_some, Cursor.skipWhile_eq, Cursor.takeSkipped, Cursor.at, Cursor.new,
        List.nil_append]

theorem decryptAfterRatchetStep_eq_ok_iff (header : Header α) (sealed : SealedFrame α)
    (nextRatchet : Except CryptoError σ) (s s' : Session α σ) (plaintext : Plaintext α) :
    decryptAfterRatchetStep P header sealed nextRatchet s = .ok plaintext s' ↔
      (∀ chain, s.receiving = some chain → header.previousChainLen.toNat ≤ 2000 ∧
        header.previousChainLen.toNat - chain.next.toNat ≤ 1000) ∧
      ∃ middle receiving own root sending,
        kdfRoot P s.rootKey s.ownRatchet header.ratchet = .ok (middle, receiving) ∧
        nextRatchet = .ok own ∧ kdfRoot P middle own header.ratchet = .ok (root, sending) ∧
        header.messageNumber.toNat ≤ 1000 ∧
        Opens P (messageKeyAt P receiving header.messageNumber.toNat) sealed plaintext ∧
        s' = (s.afterStep P header own root sending).advanceReceiving P header
          { key := receiving, next := 0 } := by
  rw [decryptAfterRatchetStep, get_bind]
  simp only [bind_eq_ok_iff, closeReceiving_eq_ok_iff, orFail_eq_ok_iff, orFailCrypto_eq_ok_iff,
    openFrame_eq_ok_iff, modify_eq_ok_iff, Cursor.intoChain_eq, Chain.start_eq, pure_eq_ok_iff,
    Except.ok.injEq]
  constructor
  -- the failing calls first: nothing is written before the frame has opened
  · rintro ⟨_, _, ⟨hcloses, rfl, rfl⟩, ⟨middle, receiving⟩, _, ⟨hreceiving, rfl⟩, own, _,
      ⟨hgenerated, rfl⟩, ⟨root, sending⟩, _, ⟨hsending, rfl⟩, ⟨messageKey, cursor⟩, _,
      ⟨hkey, rfl⟩, _, _, ⟨hopens, rfl⟩, _, _, hstore, hcommit⟩
    obtain ⟨-, -, hnear, rfl, rfl⟩ := (Cursor.messageKey_eq_ok_iff P _ _ _ _).mp hkey
    rw [storePrevious_eq_ok_iff, closePrevious_eq] at hstore
    subst hstore
    -- then the writes, one field at a time
    obtain ⟨_, _, rfl, _, _, rfl, _, _, rfl, _, _, rfl, _, _, rfl, _, _, ⟨rfl, rfl⟩, _, _, rfl,
      _, _, ⟨rfl, rfl⟩, _, _, rfl, rfl, rfl⟩ := hcommit
    exact ⟨hcloses, middle, receiving, own, root, sending, hreceiving, hgenerated, hsending,
      hnear, hopens, rfl⟩
  · rintro ⟨hcloses, middle, receiving, own, root, sending, hreceiving, hgenerated, hsending,
      hnear, hopens, rfl⟩
    have hnumber : header.messageNumber.toNat < 2000 := by omega
    refine ⟨_, _, ⟨hcloses, rfl, rfl⟩, _, _, ⟨hreceiving, rfl⟩, _, _, ⟨hgenerated, rfl⟩, _, _,
      ⟨hsending, rfl⟩, (_, _), _, ⟨(Cursor.messageKey_eq_ok_iff P (Cursor.new receiving) _ _ _).mpr
        ⟨hnumber, Nat.zero_le _, hnear, rfl, rfl⟩, rfl⟩, _, _, ⟨hopens, rfl⟩, ⟨⟩, _,
      (storePrevious_eq_ok_iff _ _ _ _ _).mpr rfl, ?_⟩
    rw [closePrevious_eq]
    exact ⟨⟨⟩, _, rfl, ⟨⟩, _, rfl, ⟨⟩, _, rfl, ⟨⟩, _, rfl, ⟨⟩, _, rfl, _, _, ⟨rfl, rfl⟩, ⟨⟩, _,
      rfl, _, _, ⟨rfl, rfl⟩, ⟨⟩, _, rfl, rfl, rfl⟩

/-- Every successful `decrypt_with` took one of the three paths of `Decrypted`. -/
theorem decryptWith_eq_ok_iff (sealed : SealedFrame α) (nextRatchet : Except CryptoError σ)
    (s s' : Session α σ) (plaintext : Plaintext α) :
    decryptWith P sealed nextRatchet s = .ok plaintext s' ↔
      ∃ key, Decrypted P s sealed nextRatchet plaintext key s' := by
  rw [decryptWith, get_bind]
  constructor
  · intro hrun
    -- a stored key, the current chain, or a step: in the order that the source tries them
    cases hposition : s.skipped.position (Header.parse sealed.frame) with
    | some index =>
      obtain ⟨older, entry, newer, hstore, rfl, hfor, hfirst⟩ :=
        (SkippedKeys.position_eq_some_iff _ _ _).mp hposition
      have hkey : s.skipped.key older.length = some entry.key := by
        rw [hstore, SkippedKeys.key_append_cons]
      simp only [hposition, bind_eq_ok_iff, orPanic_eq_ok_iff, openFrame_eq_ok_iff,
        modify_eq_ok_iff, pure_eq_ok_iff, hkey, Option.some.injEq] at hrun
      obtain ⟨_, _, ⟨rfl, rfl⟩, _, _, ⟨hopens, rfl⟩, _, _, rfl, rfl, rfl⟩ := hrun
      rw [hstore, SkippedKeys.remove_append_cons]
      exact ⟨entry.key, .skipped hstore hfor hfirst hopens⟩
    | none =>
      simp only [hposition] at hrun
      by_cases hremote : s.remoteRatchet = some (Header.parse sealed.frame).ratchet
      · rw [if_pos hremote, decryptInReceivingChain_eq_ok_iff] at hrun
        obtain ⟨chain, hreceiving, hlimit, hpassed, hnear, hopens, rfl⟩ := hrun
        exact ⟨_, .current hposition hremote hreceiving hlimit hpassed hnear hopens⟩
      · rw [if_neg hremote, decryptAfterRatchetStep_eq_ok_iff] at hrun
        obtain ⟨hcloses, middle, receiving, own, root, sending, hreceiving, hgenerated, hsending,
          hnear, hopens, rfl⟩ := hrun
        exact ⟨_, .step hposition hremote hcloses hreceiving hgenerated hsending hnear hopens⟩
  · rintro ⟨key, hdecrypted⟩
    cases hdecrypted with
    | @skipped older newer entry hstore hfor hfirst hopens =>
      have hposition : s.skipped.position (Header.parse sealed.frame) = some older.length :=
        (SkippedKeys.position_eq_some_iff _ _ _).mpr
          ⟨older, entry, newer, hstore, rfl, hfor, hfirst⟩
      simp only [hposition, bind_eq_ok_iff, orPanic_eq_ok_iff, openFrame_eq_ok_iff,
        modify_eq_ok_iff, pure_eq_ok_iff]
      refine ⟨entry.key, s, ⟨?_, rfl⟩, _, _, ⟨hopens, rfl⟩, ⟨⟩, _, rfl, rfl, ?_⟩
      · rw [hstore, SkippedKeys.key_append_cons]
      · rw [hstore, SkippedKeys.remove_append_cons]
    | current hposition hremote hreceiving hlimit hpassed hnear hopens =>
      simp only [hposition]
      rw [if_pos hremote, decryptInReceivingChain_eq_ok_iff]
      exact ⟨_, hreceiving, hlimit, hpassed, hnear, hopens, rfl⟩
    | step hposition hremote hcloses hreceiving hgenerated hsending hnear hopens =>
      simp only [hposition]
      rw [if_neg hremote, decryptAfterRatchetStep_eq_ok_iff]
      exact ⟨hcloses, _, _, _, _, _, hreceiving, hgenerated, hsending, hnear, hopens, rfl⟩

/-! ## Atomicity -/

omit [DecidableEq α] in
theorem encryptWith_atomic (nonce : Nonce α) (plaintext : Plaintext α) :
    Atomic (encryptWith P nonce plaintext : SessionM α σ (SealedFrame α)) := by
  refine readOnly_get.bind_atomic fun self => ?_
  cases self.sending with
  | none => exact (readOnly_throw _).atomic
  | some chain =>
    -- up to the last write, every call only reads
    have hseal : Atomic (do
        let messageKey ← orFailCrypto
          (SecretKey.fromSlice ((Cursor.at chain).nextMessageKey P).1.toList)
        let sealed ← orFailCrypto (aeadSeal P messageKey nonce
          (self.nextHeader P chain).toBytes.toList plaintext.toList)
        let ciphertext ← copyFromSlice (plaintextLen + tagLen) sealed
        let next ← orFail ((Cursor.at chain).nextMessageKey P).2.intoChain
        modify fun self => { self with sending := some next }
        return SealedFrame.assemble nonce (self.nextHeader P chain) ciphertext :
        SessionM α σ (SealedFrame α)) := by
      refine (readOnly_orFailCrypto _).bind_atomic fun _ =>
        (readOnly_orFailCrypto _).bind_atomic fun _ =>
        (readOnly_copyFromSlice _ _).bind_atomic fun _ =>
        (readOnly_orFail _).bind_atomic fun _ =>
        ((total_modify _).bind fun _ => total_pure _).atomic
    by_cases hlimit : chain.next ≥ chainLimit
    · simp only [hlimit, if_true]
      exact (readOnly_throw _).bind_atomic fun _ => hseal
    · simp only [hlimit, if_false]
      exact hseal

theorem decryptInReceivingChain_atomic (header : Header α) (sealed : SealedFrame α) :
    Atomic (decryptInReceivingChain P header sealed : SessionM α σ (Plaintext α)) := by
  refine readOnly_get.bind_atomic fun self => ?_
  cases self.receiving with
  | none => exact (readOnly_throw _).atomic
  | some chain =>
    refine (readOnly_orFail _).bind_atomic fun opened =>
      (readOnly_openFrame P _ _).bind_atomic fun _ => Total.atomic ?_
    rw [Cursor.intoChain_eq]
    exact (total_modify _).bind fun _ => (total_orFail_ok _).bind fun _ =>
      (total_modify _).bind fun _ => total_pure _

omit [DecidableEq α] in
theorem readOnly_closeReceiving (receiving : Option (Chain α)) (previousChainLen : UInt32) :
    ReadOnly (closeReceiving P receiving previousChainLen : SessionM α σ _) := by
  cases receiving with
  | none => exact readOnly_pure _
  | some chain => exact (readOnly_orFail _).bind fun _ => readOnly_pure _

omit [Octet α] in
theorem total_storePrevious (previous : Option (Cursor α)) (remote : Option (PublicKey α)) :
    Total (storePrevious previous remote : SessionM α σ Unit) := by
  cases previous with
  | none => exact total_pure _
  | some previous =>
    cases remote with
    | none => exact total_pure _
    | some remote => exact total_modify _

/-- The conversions that follow the first write cannot fail, so the step is atomic. -/
theorem decryptAfterRatchetStep_atomic (header : Header α) (sealed : SealedFrame α)
    (nextRatchet : Except CryptoError σ) :
    Atomic (decryptAfterRatchetStep P header sealed nextRatchet :
      SessionM α σ (Plaintext α)) := by
  refine readOnly_get.bind_atomic fun self =>
    (readOnly_closeReceiving P _ _).bind_atomic fun _ =>
    (readOnly_orFail _).bind_atomic fun _ => (readOnly_orFailCrypto _).bind_atomic fun _ =>
    (readOnly_orFail _).bind_atomic fun _ => (readOnly_orFail _).bind_atomic fun _ =>
    (readOnly_openFrame P _ _).bind_atomic fun _ => Total.atomic ?_
  rw [Chain.start_eq, Cursor.intoChain_eq]
  exact (total_storePrevious _ _).bind fun _ => (total_modify _).bind fun _ =>
    (total_modify _).bind fun _ => (total_modify _).bind fun _ => (total_modify _).bind fun _ =>
    (total_modify _).bind fun _ => (total_orFail_ok _).bind fun _ => (total_modify _).bind fun _ =>
    (total_orFail_ok _).bind fun _ => (total_modify _).bind fun _ => total_pure _

theorem decryptWith_atomic (sealed : SealedFrame α) (nextRatchet : Except CryptoError σ) :
    Atomic (decryptWith P sealed nextRatchet : SessionM α σ (Plaintext α)) := by
  refine readOnly_get.bind_atomic fun self => ?_
  cases self.skipped.position (Header.parse sealed.frame) with
  | some index =>
    exact (readOnly_orPanic _).bind_atomic fun _ => (readOnly_openFrame P _ _).bind_atomic fun _ =>
      ((total_modify _).bind fun _ => total_pure _).atomic
  | none =>
    by_cases hremote : self.remoteRatchet = some (Header.parse sealed.frame).ratchet
    · simp only [hremote, if_true]
      exact decryptInReceivingChain_atomic P _ _
    · simp only [hremote, if_false]
      exact decryptAfterRatchetStep_atomic P _ _ _

end Session
end Quietwire
