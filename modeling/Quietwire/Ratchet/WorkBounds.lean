/-
  Quietwire.Ratchet.WorkBounds

  No frame makes a session overflow, underflow or work without bound.  The code
  adds `u32` values in `next_message_key` alone and subtracts `usize` values in the
  `retain` pass alone.  Both are repeated here with overflow checks, the loop of
  `skip_to` with a budget of rounds, and the operations on a session over them; all
  of them are shown to do what they do without.  The counters of a session stay
  within the chain limit in every run.
-/
import Quietwire.Ratchet.Refusal
import Quietwire.Symbolic.Dialogue

namespace Quietwire

/-! ## Checked arithmetic -/

/-- `a + b` on `u32`; `none` is the panic on overflow. -/
def checkedAdd (a b : UInt32) : Option UInt32 :=
  if a.toNat + b.toNat < 4294967296 then some (a + b) else none

/-- `a - b` on `usize`; `none` is the panic on underflow. -/
def checkedSub (a b : Nat) : Option Nat := if b ≤ a then some (a - b) else none

/-- A computation that panics where it has no value. -/
def orPanics {β : Type} (value : Option β) : Except Failure β :=
  match value with
  | some b => .ok b
  | none => .error .panic

/-- The `?` operator on a computation that may also panic. -/
def orFailure {α σ β : Type} (result : Except Failure β) : SessionM α σ β :=
  match result with
  | .ok b => pure b
  | .error failure => throw failure

/-- A computation that does not panic fails as it does without the checks. -/
theorem orFailure_mapError {α σ β : Type} (result : Except Error β) :
    (orFailure (result.mapError Failure.error) : SessionM α σ β) = orFail result := by
  cases result with
  | ok b => rfl
  | error e => rfl

@[simp] theorem orFailure_some {α σ β : Type} (b : β) :
    (orFailure (orPanics (some b)) : SessionM α σ β) = pure b := rfl

theorem checkedAdd_one_of_lt {n : UInt32} (h : n.toNat < 2000) :
    checkedAdd n 1 = some (n + 1) := by
  have hsum : n.toNat + (1 : UInt32).toNat < 4294967296 := by
    show n.toNat + 1 < 4294967296
    omega
  rw [checkedAdd, if_pos hsum]

section Cursors

variable {α σ : Type} [Octet α] (P : Primitives α σ)

namespace Cursor

/-- `next_message_key` with overflow checks. -/
def checkedNextMessageKey (cursor : Cursor α) : Option (Key α × Cursor α) :=
  let (messageKey, chainKey) := kdfChain P cursor.key
  (checkedAdd cursor.next 1).map fun next => (messageKey, { cursor with key := chainKey, next })

/-- The loop of `skip_to` with overflow checks, given up after `budget` rounds. -/
def checkedSkipWhile : Nat → Cursor α → UInt32 → Option (Cursor α)
  | 0, cursor, until_ => if cursor.next < until_ then none else some cursor
  | budget + 1, cursor, until_ =>
    if cursor.next < until_ then
      let number := cursor.next
      (cursor.checkedNextMessageKey P).bind fun advanced =>
        checkedSkipWhile budget
          { advanced.2 with skipped := advanced.2.skipped ++ [(number, advanced.1)] } until_
    else some cursor

/-- `skip_to` with overflow checks and a budget of `MAX_SKIP_PER_CHAIN` rounds. -/
def checkedSkipTo (cursor : Cursor α) (until_ : UInt32) : Except Failure (Cursor α) :=
  if until_ > chainLimit ∨ saturatingSub until_ cursor.next > maxSkipPerChain then
    .error (.error .tooFarAhead)
  else orPanics (cursor.checkedSkipWhile P 1000 until_)

/-- `message_key` with overflow checks and that budget. -/
def checkedMessageKey (cursor : Cursor α) (number : UInt32) :
    Except Failure (Key α × Cursor α) := do
  if number ≥ chainLimit then
    throw (.error .tooFarAhead)
  if number < cursor.next then
    throw (.error (.crypto .authentication))
  let cursor ← cursor.checkedSkipTo P number
  orPanics (cursor.checkedNextMessageKey P)

variable {P}

theorem checkedNextMessageKey_of_lt {cursor : Cursor α} (h : cursor.next.toNat < 2000) :
    cursor.checkedNextMessageKey P = some (cursor.nextMessageKey P) := by
  rw [checkedNextMessageKey, checkedAdd_one_of_lt h]
  rfl

/-- Up to the chain limit no round overflows, and the loop needs one round for each number. -/
theorem checkedSkipWhile_eq {budget : Nat} {cursor : Cursor α} {until_ : UInt32}
    (hlimit : until_.toNat ≤ 2000) (hbudget : until_.toNat - cursor.next.toNat ≤ budget) :
    cursor.checkedSkipWhile P budget until_ = some (cursor.skipWhile P until_) := by
  induction budget generalizing cursor with
  | zero =>
    have hstop : ¬ cursor.next < until_ := by
      rw [UInt32.lt_iff_toNat_lt]
      omega
    rw [checkedSkipWhile, if_neg hstop, skipWhile, if_neg hstop]
  | succ budget ih =>
    by_cases hlt : cursor.next < until_
    · have hnat := UInt32.lt_iff_toNat_lt.mp hlt
      have hnext : (cursor.next + 1).toNat = cursor.next.toNat + 1 := toNat_succ_of_lt hnat
      have hbelow : cursor.next.toNat < 2000 := by omega
      have hkey := checkedNextMessageKey_of_lt (P := P) hbelow
      rw [checkedSkipWhile, if_pos hlt, hkey, skipWhile, if_pos hlt]
      apply ih
      show until_.toNat - (cursor.next + 1).toNat ≤ budget
      omega
    · rw [checkedSkipWhile, if_neg hlt, skipWhile, if_neg hlt]

theorem checkedSkipTo_eq (cursor : Cursor α) (until_ : UInt32) :
    cursor.checkedSkipTo P until_ = (cursor.skipTo P until_).mapError Failure.error := by
  cases hskip : cursor.skipTo P until_ with
  | error e =>
    unfold skipTo at hskip
    split at hskip
    · rename_i hfar
      obtain rfl := Except.error.inj hskip
      rw [checkedSkipTo, if_pos hfar]
      rfl
    · cases hskip
  | ok moved =>
    obtain ⟨hlimit, hnear, rfl⟩ := (skipTo_eq_ok_iff P _ _ _).mp hskip
    unfold skipTo at hskip
    split at hskip
    · cases hskip
    · rename_i hfar
      rw [checkedSkipTo, if_neg hfar, checkedSkipWhile_eq hlimit hnear]
      rfl

theorem checkedMessageKey_eq (cursor : Cursor α) (number : UInt32) :
    cursor.checkedMessageKey P number = (cursor.messageKey P number).mapError Failure.error := by
  unfold checkedMessageKey messageKey
  by_cases hlimit : number ≥ chainLimit
  · simp only [hlimit, if_true]
    rfl
  by_cases hpassed : number < cursor.next
  · simp only [hlimit, hpassed, if_false, if_true]
    rfl
  simp only [hlimit, hpassed, if_false, checkedSkipTo_eq]
  cases hskip : cursor.skipTo P number with
  | error e => rfl
  | ok moved =>
    -- the cursor stands at the number, which is below the chain limit
    obtain ⟨-, -, rfl⟩ := (skipTo_eq_ok_iff P _ _ _).mp hskip
    have hbelow : (cursor.skipWhile P number).next.toNat < 2000 := by
      rw [ge_iff_le, UInt32.le_iff_toNat_le, chainLimit_toNat] at hlimit
      rw [UInt32.lt_iff_toNat_lt] at hpassed
      rw [skipWhile_eq]
      show (if cursor.next < number then number else cursor.next).toNat < 2000
      split
      · omega
      · omega
    show orPanics (checkedNextMessageKey P (cursor.skipWhile P number)) = _
    rw [checkedNextMessageKey_of_lt hbelow]
    rfl

end Cursor

end Cursors

section Retaining

variable {α : Type} [DecidableEq α]

namespace SkippedKeys

/-- The `retain` pass with `excess -= usize::from(evicted)` checked. -/
def checkedRetainNewest (ratchet : PublicKey α) : Nat → SkippedKeys α → Option (SkippedKeys α)
  | _, [] => some []
  | excess, skipped :: rest =>
    let evicted : Bool := 0 < excess ∧ skipped.ratchet = ratchet
    (checkedSub excess evicted.toNat).bind fun excess =>
      (checkedRetainNewest ratchet excess rest).map fun kept =>
        if evicted then kept else skipped :: kept

theorem checkedRetainNewest_eq (ratchet : PublicKey α) (excess : Nat) (store : SkippedKeys α) :
    store.checkedRetainNewest ratchet excess = some (store.retainNewest ratchet excess) := by
  induction store generalizing excess with
  | nil => rfl
  | cons skipped rest ih =>
    rw [checkedRetainNewest, retainNewest]
    by_cases hevicted : 0 < excess ∧ skipped.ratchet = ratchet
    · have hsub : checkedSub excess 1 = some (excess - 1) := if_pos hevicted.1
      simp only [hevicted, and_self, decide_true, Bool.toNat_true, hsub, Option.bind_some, ih,
        Option.map_some, if_true]
    · have hsub : checkedSub excess 0 = some excess := if_pos (Nat.zero_le _)
      simp only [hevicted, decide_false, Bool.toNat_false, hsub, Option.bind_some, ih,
        Option.map_some, if_false, Bool.false_eq_true]

/-- `evict_oldest_of_chain` with that check; its first subtraction saturates. -/
def checkedEvictOldestOfChain (self : SkippedKeys α) (ratchet : PublicKey α) :
    Option (SkippedKeys α) :=
  let inChain := self.countP fun skipped => skipped.ratchet = ratchet
  let excess := inChain - maxSkipPerChain.toNat
  checkedRetainNewest ratchet excess self

/-- `extend` with that check. -/
def checkedExtend (self : SkippedKeys α) (ratchet : PublicKey α)
    (keys : List (UInt32 × Key α)) : Option (SkippedKeys α) :=
  (checkedEvictOldestOfChain (self ++ entries ratchet keys) ratchet).map popExcess

theorem checkedExtend_eq (store : SkippedKeys α) (ratchet : PublicKey α)
    (keys : List (UInt32 × Key α)) :
    store.checkedExtend ratchet keys = some (store.extend ratchet keys) := by
  rw [checkedExtend, checkedEvictOldestOfChain, checkedRetainNewest_eq]
  rfl

end SkippedKeys

end Retaining

/-! ## The operations with checks -/

variable {α σ : Type} [DecidableEq α] [Octet α] (P : Primitives α σ)

namespace Session

omit [DecidableEq α] in
/-- `encrypt_with` with overflow checks. -/
def checkedEncryptWith (nonce : Nonce α) (plaintext : Plaintext α) :
    SessionM α σ (SealedFrame α) := do
  let self ← get
  match self.sending with
  | none => throw (.error .sendingBlocked)
  | some chain =>
    if chain.next ≥ chainLimit then
      throw (.error .sendingBlocked)
    let header : Header α := {
      ratchet := publicKey P self.ownRatchet
      previousChainLen := self.previousSendingLen
      messageNumber := chain.next }
    let (messageKey, cursor) ← orFailure (orPanics ((Cursor.at chain).checkedNextMessageKey P))
    let messageKey ← orFailCrypto (SecretKey.fromSlice messageKey.toList)
    let sealed ← orFailCrypto
      (aeadSeal P messageKey nonce header.toBytes.toList plaintext.toList)
    let ciphertext ← copyFromSlice (plaintextLen + tagLen) sealed
    let next ← orFail cursor.intoChain
    modify fun self => { self with sending := some next }
    return SealedFrame.assemble nonce header ciphertext

omit [Octet α] in
/-- `self.skipped.extend` with overflow checks. -/
def checkedStore (ratchet : PublicKey α) (keys : List (UInt32 × Key α)) :
    SessionM α σ Unit := do
  let self ← get
  let skipped ← orFailure (orPanics (self.skipped.checkedExtend ratchet keys))
  modify fun self => { self with skipped }

/-- `decrypt_in_receiving_chain` with overflow checks and the budget. -/
def checkedDecryptInReceivingChain (header : Header α) (sealed : SealedFrame α) :
    SessionM α σ (Plaintext α) := do
  let self ← get
  match self.receiving with
  | none => throw (.error (.crypto .authentication))
  | some chain =>
    let (messageKey, cursor) ←
      orFailure ((Cursor.at chain).checkedMessageKey P header.messageNumber)
    let plaintext ← openFrame P messageKey sealed
    checkedStore header.ratchet cursor.takeSkipped
    let receiving ← orFail cursor.intoChain
    modify fun self => { self with receiving := some receiving }
    return plaintext

omit [DecidableEq α] in
/-- The start of `decrypt_after_ratchet_step` with overflow checks and the budget. -/
def checkedCloseReceiving (receiving : Option (Chain α)) (previousChainLen : UInt32) :
    SessionM α σ (Option (Cursor α)) :=
  match receiving with
  | none => pure none
  | some chain => do
    let cursor ← orFailure ((Cursor.at chain).checkedSkipTo P previousChainLen)
    return some cursor

omit [Octet α] in
/-- The first insertion of `decrypt_after_ratchet_step` with overflow checks. -/
def checkedStorePrevious (previous : Option (Cursor α)) (remoteRatchet : Option (PublicKey α)) :
    SessionM α σ Unit :=
  match previous, remoteRatchet with
  | some previous, some remote => checkedStore remote previous.takeSkipped
  | _, _ => pure ()

/-- `decrypt_after_ratchet_step` with overflow checks and the budget for each chain. -/
def checkedDecryptAfterRatchetStep (header : Header α) (sealed : SealedFrame α)
    (nextRatchet : Except CryptoError σ) : SessionM α σ (Plaintext α) := do
  let self ← get
  let previous ← checkedCloseReceiving P self.receiving header.previousChainLen
  let (rootKey, receiving) ← orFail (kdfRoot P self.rootKey self.ownRatchet header.ratchet)
  let ownRatchet ← orFailCrypto nextRatchet
  let (rootKey, sending) ← orFail (kdfRoot P rootKey ownRatchet header.ratchet)
  let (messageKey, cursor) ←
    orFailure ((Cursor.new receiving).checkedMessageKey P header.messageNumber)
  let plaintext ← openFrame P messageKey sealed
  checkedStorePrevious previous self.remoteRatchet
  checkedStore header.ratchet cursor.takeSkipped
  modify fun self => { self with rootKey }
  modify fun self => { self with ownRatchet }
  modify fun self => { self with remoteRatchet := some header.ratchet }
  modify fun self =>
    { self with previousSendingLen := (self.sending.map Chain.next).getD 0 }
  let sending ← orFail (Chain.start sending)
  modify fun self => { self with sending := some sending }
  let receiving ← orFail cursor.intoChain
  modify fun self => { self with receiving := some receiving }
  return plaintext

/-- `decrypt_with` with overflow checks and the budget for each chain. -/
def checkedDecryptWith (sealed : SealedFrame α) (nextRatchet : Except CryptoError σ) :
    SessionM α σ (Plaintext α) := do
  let header := Header.parse sealed.frame
  let self ← get
  match self.skipped.position header with
  | some index =>
    let key ← orPanic (self.skipped.key index)
    let plaintext ← openFrame P key sealed
    modify fun self => { self with skipped := self.skipped.remove index }
    return plaintext
  | none =>
    if self.remoteRatchet = some header.ratchet then
      checkedDecryptInReceivingChain P header sealed
    else
      checkedDecryptAfterRatchetStep P header sealed nextRatchet

omit [DecidableEq α] in
/-- The counter that `encrypt_with` advances is below the chain limit. -/
theorem checkedEncryptWith_eq (nonce : Nonce α) (plaintext : Plaintext α) :
    (checkedEncryptWith P nonce plaintext : SessionM α σ (SealedFrame α))
      = encryptWith P nonce plaintext := by
  funext s
  rw [checkedEncryptWith, encryptWith, Transaction.get_bind, Transaction.get_bind]
  cases hsending : s.sending with
  | none => rfl
  | some chain =>
    by_cases hlimit : chain.next ≥ chainLimit
    · simp only [hlimit, if_true]
      rfl
    · have hbelow : (Cursor.at chain).next.toNat < 2000 := by
        rw [ge_iff_le, UInt32.le_iff_toNat_le, chainLimit_toNat] at hlimit
        show chain.next.toNat < 2000
        omega
      simp only [hlimit, if_false, Cursor.checkedNextMessageKey_of_lt hbelow]
      rfl

omit [Octet α] in
theorem checkedStore_eq (ratchet : PublicKey α) (keys : List (UInt32 × Key α)) :
    (checkedStore ratchet keys : SessionM α σ Unit)
      = modify fun self => { self with skipped := self.skipped.extend ratchet keys } := by
  funext s
  rw [checkedStore, Transaction.get_bind, SkippedKeys.checkedExtend_eq, orFailure_some,
    Transaction.pure_bind_apply]
  exact Transaction.modify_congr rfl

theorem checkedDecryptInReceivingChain_eq (header : Header α) (sealed : SealedFrame α) :
    (checkedDecryptInReceivingChain P header sealed : SessionM α σ (Plaintext α))
      = decryptInReceivingChain P header sealed := by
  funext s
  rw [checkedDecryptInReceivingChain, decryptInReceivingChain, Transaction.get_bind,
    Transaction.get_bind]
  cases s.receiving with
  | none => rfl
  | some chain => simp only [Cursor.checkedMessageKey_eq, orFailure_mapError, checkedStore_eq]

omit [DecidableEq α] in
theorem checkedCloseReceiving_eq (receiving : Option (Chain α)) (previousChainLen : UInt32) :
    (checkedCloseReceiving P receiving previousChainLen : SessionM α σ _)
      = closeReceiving P receiving previousChainLen := by
  cases receiving with
  | none => rfl
  | some chain =>
    simp only [checkedCloseReceiving, closeReceiving, Cursor.checkedSkipTo_eq, orFailure_mapError]

omit [Octet α] in
theorem checkedStorePrevious_eq (previous : Option (Cursor α)) (remote : Option (PublicKey α)) :
    (checkedStorePrevious previous remote : SessionM α σ Unit)
      = storePrevious previous remote := by
  cases previous with
  | none => rfl
  | some previous =>
    cases remote with
    | none => rfl
    | some remote => exact checkedStore_eq remote previous.takeSkipped

theorem checkedDecryptAfterRatchetStep_eq (header : Header α) (sealed : SealedFrame α)
    (nextRatchet : Except CryptoError σ) :
    (checkedDecryptAfterRatchetStep P header sealed nextRatchet : SessionM α σ (Plaintext α))
      = decryptAfterRatchetStep P header sealed nextRatchet := by
  unfold checkedDecryptAfterRatchetStep decryptAfterRatchetStep
  simp only [Cursor.checkedMessageKey_eq, orFailure_mapError, checkedStore_eq,
    checkedCloseReceiving_eq, checkedStorePrevious_eq]

theorem checkedDecryptWith_eq (sealed : SealedFrame α) (nextRatchet : Except CryptoError σ) :
    (checkedDecryptWith P sealed nextRatchet : SessionM α σ (Plaintext α))
      = decryptWith P sealed nextRatchet := by
  funext s
  rw [checkedDecryptWith, decryptWith, Transaction.get_bind, Transaction.get_bind]
  cases s.skipped.position (Header.parse sealed.frame) with
  | some index => rfl
  | none => simp only [checkedDecryptInReceivingChain_eq, checkedDecryptAfterRatchetStep_eq]

end Session

/-! ## The counters -/

variable {P}

namespace Session

variable {s s' : Session α σ}

/-- The counters of a session are within the chain limit. -/
structure Bounded (s : Session α σ) : Prop where
  sending : ∀ chain, s.sending = some chain → chain.next.toNat ≤ 2000
  receiving : ∀ chain, s.receiving = some chain → chain.next.toNat ≤ 2000
  previous : s.previousSendingLen.toNat ≤ 2000

/-- Moving the receiving chain past a number below the limit. -/
theorem Bounded.advanceReceiving (h : Bounded s) {header : Header α} (chain : Chain α)
    (hnumber : header.messageNumber.toNat < 2000) :
    Bounded (s.advanceReceiving P header chain) where
  sending := h.sending
  receiving := by
    rintro after ⟨⟩
    show (header.messageNumber + 1).toNat ≤ 2000
    have hlimit : header.messageNumber.toNat < chainLimit.toNat := hnumber
    rw [toNat_succ_of_lt hlimit]
    omega
  previous := h.previous

/-- A ratchet step freezes the sending counter and starts a new one. -/
theorem Bounded.afterStep (h : Bounded s) (header : Header α) (own : σ) (root : SecretKey α)
    (sending : Key α) : Bounded (s.afterStep P header own root sending) where
  sending := by
    rintro chain ⟨⟩
    exact Nat.zero_le _
  receiving := h.receiving
  previous := by
    show ((s.sending.map Chain.next).getD 0).toNat ≤ 2000
    cases hsending : s.sending with
    | none => exact Nat.zero_le _
    | some chain => exact h.sending chain hsending

theorem Bounded.call (h : Bounded s) (call : Call α σ) : Bounded (s.call P call).1 := by
  cases hcall : s.call P call with
  | mk s' output =>
    have heffect := s.call_effect (P := P) call
    rw [hcall] at heffect
    cases heffect with
    | refusedSealing => exact h
    | refusedOpening => exact h
    | @sealed nonce plaintext sealed s' chain run =>
      rw [run.after]
      refine ⟨?_, h.receiving, h.previous⟩
      rintro after ⟨⟩
      show (chain.next + 1).toNat ≤ 2000
      have hlimit : chain.next.toNat < chainLimit.toNat := run.belowLimit
      rw [toNat_succ_of_lt hlimit]
      exact run.belowLimit
    | opened run =>
      cases run with
      | skipped store found first opens => exact ⟨h.sending, h.receiving, h.previous⟩
      | current missing remote receiving belowLimit notPassed near opens =>
        exact h.advanceReceiving _ belowLimit
      | step missing remote closes receivingKeys generated sendingKeys near opens =>
        exact (h.afterStep _ _ _ _).advanceReceiving _ (by omega)

theorem Started.bounded (h : Started P s) : Bounded s := by
  obtain ⟨hreceiving, hprevious, -, hsending⟩ := h.fresh
  refine ⟨?_, ?_, ?_⟩
  · intro chain hchain
    rw [hsending chain hchain]
    exact Nat.zero_le _
  · intro chain hchain
    rw [hreceiving] at hchain
    cases hchain
  · rw [hprevious]
    exact Nat.zero_le _

theorem bounded_reaches {s₀ : Session α σ} (hstart : Started P s₀) (hreaches : Reaches P s₀ s) :
    Bounded s :=
  hreaches.invariant (fun _ call h _ => h.call call) hstart.bounded

/-! ## What a call returns -/

/-- A `decrypt` that fails gives one of four errors. -/
theorem decrypt_eq_error (lengths : TagRemoved P) {sealed : SealedFrame α} {random : Option σ}
    {failure : Failure} (h : decrypt P sealed (rngFill random) s = .error failure s') :
    failure = .error (.crypto .authentication) ∨ failure = .error .tooFarAhead ∨
      failure = .error (.crypto .invalidPublicKey) ∨ failure = .error (.crypto .rng) := by
  obtain ⟨e, rfl, hrefused⟩ := refused_of_error lengths h
  cases hrefused with
  | skipped found stored closed => exact .inl rfl
  | noChain missing remote receiving => exact .inl rfl
  | passed missing remote receiving number => exact .inl rfl
  | farCurrent missing remote receiving far => exact .inr (.inl rfl)
  | forgedCurrent missing remote closed => exact .inl rfl
  | farPrevious missing remote receiving far => exact .inr (.inl rfl)
  | lowOrder missing remote zero => exact .inr (.inr (.inl rfl))
  | noKey missing remote generated =>
    cases random with
    | none =>
      obtain rfl := Except.error.inj generated
      exact .inr (.inr (.inr rfl))
    | some own => cases generated
  | lowOrderNext missing remote generated zero => exact .inr (.inr (.inl rfl))
  | farNext missing remote far => exact .inr (.inl rfl)
  | forgedNext missing remote near closes receivingKeys closed => exact .inl rfl

omit [DecidableEq α] in
/-- An `encrypt` that fails gives one of two. -/
theorem encrypt_eq_error (total : TotalSealing P) {random : Option (Nonce α)}
    {plaintext : Plaintext α} {failure : Failure}
    (h : encrypt P (rngFill random) plaintext s = .error failure s') :
    failure = .error .sendingBlocked ∨ failure = .error (.crypto .rng) := by
  cases random with
  | none =>
    cases h
    exact .inr rfl
  | some nonce =>
    have hwith : encryptWith P nonce plaintext s = .error failure s' := h
    by_cases hblocked : s.Blocked
    · rw [encryptWith_of_blocked hblocked] at hwith
      cases hwith
      exact .inl rfl
    · exact absurd total (encryptWith_of_not_blocked hblocked hwith).2

end Session

/-- Bounded work and no arithmetic or length failure, whoever seals the frames.  In every
    state that calls on arbitrary frames reach, the counters are at most 2 000; with every
    addition and subtraction checked, and with a budget of 1 000 skipped keys for each of the
    two chains, `encrypt_with` and `decrypt_with` do what they do without; and `decrypt` and
    `encrypt` return only the errors named, and in particular do not panic. -/
theorem work_bounded (lengths : TagRemoved P) (total : TotalSealing P) {s₀ s : Session α σ}
    (hstart : s₀.Started P) (hreaches : Session.Reaches P s₀ s) :
    ((∀ chain, s.sending = some chain → chain.next.toNat ≤ 2000) ∧
      (∀ chain, s.receiving = some chain → chain.next.toNat ≤ 2000) ∧
      s.previousSendingLen.toNat ≤ 2000) ∧
    ((∀ nonce plaintext, Session.checkedEncryptWith P nonce plaintext s
        = Session.encryptWith P nonce plaintext s) ∧
      ∀ sealed nextRatchet, Session.checkedDecryptWith P sealed nextRatchet s
        = Session.decryptWith P sealed nextRatchet s) ∧
    (∀ sealed random, (∃ plaintext,
        (s.call P (.decrypt sealed random)).2 = .opened (.ok plaintext)) ∨
      (s.call P (.decrypt sealed random)).2 = .opened (.error (.error (.crypto .authentication))) ∨
      (s.call P (.decrypt sealed random)).2 = .opened (.error (.error .tooFarAhead)) ∨
      (s.call P (.decrypt sealed random)).2
        = .opened (.error (.error (.crypto .invalidPublicKey))) ∨
      (s.call P (.decrypt sealed random)).2 = .opened (.error (.error (.crypto .rng)))) ∧
    ∀ random plaintext, (∃ sealed,
        (s.call P (.encrypt random plaintext)).2 = .sealed (.ok sealed)) ∨
      (s.call P (.encrypt random plaintext)).2 = .sealed (.error (.error .sendingBlocked)) ∨
      (s.call P (.encrypt random plaintext)).2 = .sealed (.error (.error (.crypto .rng))) := by
  -- within the bounds, the checked arithmetic never fails
  have hbounded := Session.bounded_reaches hstart hreaches
  refine ⟨⟨hbounded.sending, hbounded.receiving, hbounded.previous⟩, ⟨?_, ?_⟩, ?_, ?_⟩
  · intro nonce plaintext
    rw [Session.checkedEncryptWith_eq]
  · intro sealed nextRatchet
    rw [Session.checkedDecryptWith_eq]
  · intro sealed random
    rw [Session.call]
    cases hrun : Session.decrypt P sealed (rngFill random) s with
    | ok plaintext s' => exact .inl ⟨plaintext, rfl⟩
    | error failure s' =>
      -- the reasons for which a call can fail, each with its own branch
      rcases Session.decrypt_eq_error lengths hrun with rfl | rfl | rfl | rfl
      · exact .inr (.inl rfl)
      · exact .inr (.inr (.inl rfl))
      · exact .inr (.inr (.inr (.inl rfl)))
      · exact .inr (.inr (.inr (.inr rfl)))
  · intro random plaintext
    rw [Session.call]
    cases hrun : Session.encrypt P (rngFill random) plaintext s with
    | ok sealed s' => exact .inl ⟨sealed, rfl⟩
    | error failure s' =>
      rcases Session.encrypt_eq_error total hrun with rfl | rfl
      · exact .inr (.inl rfl)
      · exact .inr (.inr rfl)

/-- In a session that has skipped a frame. -/
theorem work_bounded_symbolic : ∃ s₀ s : Session Symbolic.Letter Nat,
    s₀.Started Symbolic.primitives ∧ Session.Reaches Symbolic.primitives s₀ s ∧
    s.skipped ≠ [] ∧ (∀ chain, s.receiving = some chain → chain.next.toNat ≤ 2000) ∧
    ∀ sealed nextRatchet, Session.checkedDecryptWith Symbolic.primitives sealed nextRatchet s
      = Session.decryptWith Symbolic.primitives sealed nextRatchet s := by
  obtain ⟨o⟩ := Symbolic.exists_overtaking
  obtain ⟨e, he, -⟩ := o.stored₃_a₀
  have hstarted := World.started_of_start o.start .responder
  have hcalls := World.session_reaches o.talk₃.reaches .responder
  obtain ⟨⟨-, hreceiving, -⟩, ⟨-, hchecked⟩, -⟩ :=
    work_bounded (fun _ _ _ _ _ => Symbolic.length_of_opens) Symbolic.total hstarted hcalls
  exact ⟨_, _, hstarted, hcalls, List.ne_nil_of_mem he, hreceiving, hchecked⟩

end Quietwire
