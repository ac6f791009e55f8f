/-
  Quietwire.Ratchet.Refusal

  Why a call fails: an inversion of every `decrypt_with` and `encrypt_with` that
  returns no result, one constructor for each check that can turn a frame down.
  That nothing panics rests on the lengths that the AEAD returns.
-/
import Quietwire.Ratchet.Calls

namespace Quietwire

open Transaction

variable {α σ : Type}

/-- `aead::open` takes off the tag. -/
def TagRemoved (P : Primitives α σ) : Prop :=
  ∀ (key : SecretKey α) (nonce : Nonce α) (aad sealed plaintext : List α),
    aeadOpen P key nonce aad sealed = .ok plaintext → plaintext.length + tagLen = sealed.length

section Lifting

variable {β : Type} {s s' : Session α σ} {failure : Failure}

@[simp] theorem orFail_eq_error_iff (result : Except Error β) :
    orFail result s = .error failure s' ↔
      ∃ e, result = .error e ∧ failure = .error e ∧ s' = s := by
  cases result with
  | ok b => simp [orFail, pure, EStateM.pure]
  | error e =>
    simp only [orFail, throw_eq_error_iff, Except.error.injEq, exists_eq_left']

@[simp] theorem orFailCrypto_eq_error_iff (result : Except CryptoError β) :
    orFailCrypto result s = .error failure s' ↔
      ∃ e, result = .error e ∧ failure = .error (.crypto e) ∧ s' = s := by
  cases result with
  | ok b => simp [orFailCrypto]
  | error e => simp [orFailCrypto]

theorem modify_ne_error (f : Session α σ → Session α σ) :
    (modify f : SessionM α σ PUnit) s ≠ .error failure s' := total_modify f s failure s'

theorem pure_ne_error (b : β) : (pure b : SessionM α σ β) s ≠ .error failure s' :=
  total_pure b s failure s'

end Lifting

section Opening

variable {P : Primitives α σ} {s s' : Session α σ} {failure : Failure}

/-- A frame that does not open fails to authenticate. -/
theorem openFrame_eq_error (lengths : TagRemoved P) {key : Key α} {sealed : SealedFrame α}
    (h : openFrame P key sealed s = .error failure s') :
    (∀ plaintext, ¬ Opens P key sealed plaintext) ∧
      failure = .error (.crypto .authentication) := by
  simp only [openFrame, bind_eq_error_iff, orFailCrypto_eq_error_iff, orFailCrypto_eq_ok_iff,
    SecretKey.fromSlice_toList] at h
  -- a key of 32 bytes is always accepted
  rcases h with ⟨e, he, -⟩ | ⟨_, _, ⟨⟨⟩, rfl⟩, hrest⟩
  · cases he
  rcases hrest with ⟨e, he, rfl, rfl⟩ | ⟨opened, _, ⟨hopened, rfl⟩, hcopy⟩
  · have hauth : e = .authentication := by
      unfold aeadOpen at he
      split at he
      · cases he
      · exact (Except.error.inj he).symm
    refine ⟨?_, by rw [hauth]⟩
    intro plaintext hopens
    rw [Opens, he] at hopens
    cases hopens
  · -- the opened text has the length of a plaintext, so it is copied
    have hlen : opened.length = plaintextLen := by
      have hopenedLen := lengths _ _ _ _ _ hopened
      rw [Vector.length_toList] at hopenedLen
      exact Nat.add_right_cancel hopenedLen
    rw [copyFromSlice, dif_pos hlen] at hcopy
    exact absurd hcopy (pure_ne_error _)

end Opening

/-! ## Cursors -/

section Cursors

variable [Octet α] {P : Primitives α σ}

namespace Cursor

theorem skipTo_eq_error {cursor : Cursor α} {until_ : UInt32} {e : Error}
    (h : cursor.skipTo P until_ = .error e) :
    e = .tooFarAhead ∧ (2000 < until_.toNat ∨ 1000 < until_.toNat - cursor.next.toNat) := by
  have hnot : ¬ ∃ moved, cursor.skipTo P until_ = .ok moved := by
    rintro ⟨moved, hok⟩
    rw [h] at hok
    cases hok
  refine ⟨?_, ?_⟩
  · unfold skipTo at h
    split at h
    · exact (Except.error.inj h).symm
    · cases h
  · by_contra hnear
    rw [not_or] at hnear
    exact hnot ⟨_, (skipTo_eq_ok_iff P _ _ _).mpr ⟨by omega, by omega, rfl⟩⟩

/-- Why `message_key` fails: the number is too far ahead, or it was passed. -/
theorem messageKey_eq_error {cursor : Cursor α} {number : UInt32} {e : Error}
    (h : cursor.messageKey P number = .error e) :
    e = .tooFarAhead ∧ (2000 ≤ number.toNat ∨ 1000 < number.toNat - cursor.next.toNat) ∨
    e = .crypto .authentication ∧ number.toNat < 2000 ∧ number.toNat < cursor.next.toNat := by
  unfold messageKey at h
  -- the same three checks, in the order of the source
  by_cases hlimit : number ≥ chainLimit
  · have hnat : 2000 ≤ number.toNat := by
      rw [ge_iff_le, UInt32.le_iff_toNat_le, chainLimit_toNat] at hlimit
      exact hlimit
    simp only [hlimit, if_true, throw, throwThe, MonadExceptOf.throw, bind, Except.bind,
      Except.error.injEq] at h
    exact .inl ⟨h.symm, .inl hnat⟩
  have hnat : number.toNat < 2000 := by
    rw [ge_iff_le, UInt32.le_iff_toNat_le, chainLimit_toNat] at hlimit
    omega
  by_cases hpassed : number < cursor.next
  · simp only [hlimit, hpassed, if_false, if_true, throw, throwThe, MonadExceptOf.throw, bind,
      Except.bind, pure, Except.pure, Except.error.injEq] at h
    exact .inr ⟨h.symm, hnat, UInt32.lt_iff_toNat_lt.mp hpassed⟩
  simp only [hlimit, hpassed, if_false, bind, Except.bind, pure, Except.pure] at h
  cases hskip : cursor.skipTo P number with
  | error e' =>
    rw [hskip] at h
    obtain ⟨rfl, hfar⟩ := skipTo_eq_error hskip
    obtain rfl := Except.error.inj h
    exact .inl ⟨rfl, .inr (by omega)⟩
  | ok moved =>
    rw [hskip] at h
    cases h

end Cursor

theorem kdfRoot_eq_error [DecidableEq α] {rootKey : SecretKey α} {own : σ} {remote : PublicKey α}
    {e : Error} (h : kdfRoot P rootKey own remote = .error e) :
    e = .crypto .invalidPublicKey ∧ P.x25519 own remote = zeroBytes := by
  rw [kdfRoot_eq] at h
  split at h
  · rename_i hzero
    exact ⟨(Except.error.inj h).symm, hzero⟩
  · cases h

end Cursors

variable [DecidableEq α] [Octet α] {P : Primitives α σ}

namespace Session

/-! ## decrypt_with -/

/-- A `decrypt_with` that fails, by the check that turned the frame down. -/
inductive Refused (P : Primitives α σ) (s : Session α σ) (sealed : SealedFrame α)
    (nextRatchet : Except CryptoError σ) : Error → Prop
  | skipped {index : Nat} {key : Key α}
      (found : s.skipped.position (Header.parse sealed.frame) = some index)
      (stored : s.skipped.key index = some key)
      (closed : ∀ plaintext, ¬ Opens P key sealed plaintext) :
      Refused P s sealed nextRatchet (.crypto .authentication)
  | noChain (missing : s.skipped.position (Header.parse sealed.frame) = none)
      (remote : s.remoteRatchet = some (Header.parse sealed.frame).ratchet)
      (receiving : s.receiving = none) :
      Refused P s sealed nextRatchet (.crypto .authentication)
  | passed {chain : Chain α} (missing : s.skipped.position (Header.parse sealed.frame) = none)
      (remote : s.remoteRatchet = some (Header.parse sealed.frame).ratchet)
      (receiving : s.receiving = some chain)
      (number : (Header.parse sealed.frame).messageNumber.toNat < chain.next.toNat) :
      Refused P s sealed nextRatchet (.crypto .authentication)
  | farCurrent {chain : Chain α}
      (missing : s.skipped.position (Header.parse sealed.frame) = none)
      (remote : s.remoteRatchet = some (Header.parse sealed.frame).ratchet)
      (receiving : s.receiving = some chain)
      (far : 2000 ≤ (Header.parse sealed.frame).messageNumber.toNat ∨
        1000 < (Header.parse sealed.frame).messageNumber.toNat - chain.next.toNat) :
      Refused P s sealed nextRatchet .tooFarAhead
  | forgedCurrent {key : Key α}
      (missing : s.skipped.position (Header.parse sealed.frame) = none)
      (remote : s.remoteRatchet = some (Header.parse sealed.frame).ratchet)
      (closed : ∀ plaintext, ¬ Opens P key sealed plaintext) :
      Refused P s sealed nextRatchet (.crypto .authentication)
  | farPrevious {chain : Chain α}
      (missing : s.skipped.position (Header.parse sealed.frame) = none)
      (remote : s.remoteRatchet ≠ some (Header.parse sealed.frame).ratchet)
      (receiving : s.receiving = some chain)
      (far : 2000 < (Header.parse sealed.frame).previousChainLen.toNat ∨
        1000 < (Header.parse sealed.frame).previousChainLen.toNat - chain.next.toNat) :
      Refused P s sealed nextRatchet .tooFarAhead
  | lowOrder (missing : s.skipped.position (Header.parse sealed.frame) = none)
      (remote : s.remoteRatchet ≠ some (Header.parse sealed.frame).ratchet)
      (zero : P.x25519 s.ownRatchet (Header.parse sealed.frame).ratchet = zeroBytes) :
      Refused P s sealed nextRatchet (.crypto .invalidPublicKey)
  | noKey {e : CryptoError} (missing : s.skipped.position (Header.parse sealed.frame) = none)
      (remote : s.remoteRatchet ≠ some (Header.parse sealed.frame).ratchet)
      (generated : nextRatchet = .error e) :
      Refused P s sealed nextRatchet (.crypto e)
  | lowOrderNext {own : σ} (missing : s.skipped.position (Header.parse sealed.frame) = none)
      (remote : s.remoteRatchet ≠ some (Header.parse sealed.frame).ratchet)
      (generated : nextRatchet = .ok own)
      (zero : P.x25519 own (Header.parse sealed.frame).ratchet = zeroBytes) :
      Refused P s sealed nextRatchet (.crypto .invalidPublicKey)
  | farNext (missing : s.skipped.position (Header.parse sealed.frame) = none)
      (remote : s.remoteRatchet ≠ some (Header.parse sealed.frame).ratchet)
      (far : 1000 < (Header.parse sealed.frame).messageNumber.toNat) :
      Refused P s sealed nextRatchet .tooFarAhead
  | forgedNext {middle : SecretKey α} {receiving : Key α}
      (missing : s.skipped.position (Header.parse sealed.frame) = none)
      (remote : s.remoteRatchet ≠ some (Header.parse sealed.frame).ratchet)
      (near : (Header.parse sealed.frame).messageNumber.toNat ≤ 1000)
      (closes : ∀ chain, s.receiving = some chain →
        (Header.parse sealed.frame).previousChainLen.toNat - chain.next.toNat ≤ 1000)
      (receivingKeys : kdfRoot P s.rootKey s.ownRatchet (Header.parse sealed.frame).ratchet
        = .ok (middle, receiving))
      (closed : ∀ plaintext, ¬ Opens P (messageKeyAt P receiving
        (Header.parse sealed.frame).messageNumber.toNat) sealed plaintext) :
      Refused P s sealed nextRatchet (.crypto .authentication)

variable {s s' : Session α σ} {sealed : SealedFrame α} {nextRatchet : Except CryptoError σ}
  {failure : Failure}

omit [DecidableEq α] [Octet α] in
/-- Once there is a key, opening the frame is the last thing that can fail. -/
theorem opening_eq_error (lengths : TagRemoved P) {key : Key α}
    {commit : Plaintext α → SessionM α σ (Plaintext α)} (hcommit : ∀ p, Total (commit p))
    (h : (openFrame P key sealed >>= commit) s = .error failure s') :
    (∀ plaintext, ¬ Opens P key sealed plaintext) ∧
      failure = .error (.crypto .authentication) := by
  rcases (bind_eq_error_iff _ _ _ _ _).mp h with hopen | ⟨plaintext, t, -, hrest⟩
  · exact openFrame_eq_error lengths hopen
  · exact absurd hrest (hcommit plaintext _ _ _)

theorem refused_inReceivingChain (lengths : TagRemoved P)
    (missing : s.skipped.position (Header.parse sealed.frame) = none)
    (remote : s.remoteRatchet = some (Header.parse sealed.frame).ratchet)
    (h : decryptInReceivingChain P (Header.parse sealed.frame) sealed s = .error failure s') :
    ∃ e, failure = .error e ∧ Refused P s sealed nextRatchet e := by
  rw [decryptInReceivingChain, get_bind] at h
  cases hreceiving : s.receiving with
  | none =>
    simp only [hreceiving] at h
    cases h
    exact ⟨_, rfl, .noChain missing remote hreceiving⟩
  | some chain =>
    simp only [hreceiving] at h
    rcases (bind_eq_error_iff _ _ _ _ _).mp h with hkey | ⟨⟨key, cursor⟩, t, hkey, hrest⟩
    · obtain ⟨e, he, rfl, rfl⟩ := (orFail_eq_error_iff _).mp hkey
      rcases Cursor.messageKey_eq_error he with ⟨rfl, hfar⟩ | ⟨rfl, -, hpassed⟩
      · exact ⟨_, rfl, .farCurrent missing remote hreceiving hfar⟩
      · exact ⟨_, rfl, .passed missing remote hreceiving hpassed⟩
    · obtain ⟨hclosed, rfl⟩ := opening_eq_error lengths (fun _ => by
        rw [Cursor.intoChain_eq]
        exact (total_modify _).bind fun _ => (total_orFail_ok _).bind fun _ =>
          (total_modify _).bind fun _ => total_pure _) hrest
      exact ⟨_, rfl, .forgedCurrent missing remote hclosed⟩

theorem refused_afterRatchetStep (lengths : TagRemoved P)
    (missing : s.skipped.position (Header.parse sealed.frame) = none)
    (remote : s.remoteRatchet ≠ some (Header.parse sealed.frame).ratchet)
    (h : decryptAfterRatchetStep P (Header.parse sealed.frame) sealed nextRatchet s
      = .error failure s') :
    ∃ e, failure = .error e ∧ Refused P s sealed nextRatchet e := by
  rw [decryptAfterRatchetStep, get_bind] at h
  -- the checks in the order in which they are made
  rcases (bind_eq_error_iff _ _ _ _ _).mp h with hclose | ⟨previous, t, hclose, h⟩
  · cases hreceiving : s.receiving with
    | none =>
      rw [hreceiving, closeReceiving] at hclose
      exact absurd hclose (pure_ne_error _)
    | some chain =>
      rw [hreceiving, closeReceiving] at hclose
      rcases (bind_eq_error_iff _ _ _ _ _).mp hclose with hskip | ⟨cursor, t, -, hpure⟩
      · obtain ⟨e, he, rfl, -⟩ := (orFail_eq_error_iff _).mp hskip
        obtain ⟨rfl, hfar⟩ := Cursor.skipTo_eq_error he
        exact ⟨_, rfl, .farPrevious missing remote hreceiving hfar⟩
      · exact absurd hpure (pure_ne_error _)
  obtain ⟨hcloses, rfl, rfl⟩ := (closeReceiving_eq_ok_iff P _ _ _ _ _).mp hclose
  rcases (bind_eq_error_iff _ _ _ _ _).mp h with hkeys | ⟨⟨middle, receiving⟩, t, hkeys, h⟩
  · obtain ⟨e, he, rfl, -⟩ := (orFail_eq_error_iff _).mp hkeys
    obtain ⟨rfl, hzero⟩ := kdfRoot_eq_error he
    exact ⟨_, rfl, .lowOrder missing remote hzero⟩
  obtain ⟨hreceivingKeys, rfl⟩ := (orFail_eq_ok_iff _ _ _ _).mp hkeys
  rcases (bind_eq_error_iff _ _ _ _ _).mp h with hgenerated | ⟨own, t, hgenerated, h⟩
  · obtain ⟨e, he, rfl, -⟩ := (orFailCrypto_eq_error_iff _).mp hgenerated
    exact ⟨_, rfl, .noKey missing remote he⟩
  obtain ⟨hown, rfl⟩ := (orFailCrypto_eq_ok_iff _ _ _ _).mp hgenerated
  rcases (bind_eq_error_iff _ _ _ _ _).mp h with hkeys | ⟨⟨root, sending⟩, t, hkeys, h⟩
  · obtain ⟨e, he, rfl, -⟩ := (orFail_eq_error_iff _).mp hkeys
    obtain ⟨rfl, hzero⟩ := kdfRoot_eq_error he
    exact ⟨_, rfl, .lowOrderNext missing remote hown hzero⟩
  obtain ⟨-, rfl⟩ := (orFail_eq_ok_iff _ _ _ _).mp hkeys
  rcases (bind_eq_error_iff _ _ _ _ _).mp h with hkey | ⟨⟨key, cursor⟩, t, hkey, h⟩
  · obtain ⟨e, he, rfl, -⟩ := (orFail_eq_error_iff _).mp hkey
    rcases Cursor.messageKey_eq_error he with ⟨rfl, hfar⟩ | ⟨-, -, hpassed⟩
    · have hzero : (Cursor.new receiving).next.toNat = 0 := rfl
      exact ⟨_, rfl, .farNext missing remote (by omega)⟩
    · exact absurd hpassed (Nat.not_lt_zero _)
  obtain ⟨hmessageKey, rfl⟩ := (orFail_eq_ok_iff _ _ _ _).mp hkey
  obtain ⟨-, -, hnear, rfl, -⟩ := (Cursor.messageKey_eq_ok_iff P _ _ _ _).mp hmessageKey
  obtain ⟨hclosed, rfl⟩ := opening_eq_error lengths (fun _ => by
    rw [Chain.start_eq, Cursor.intoChain_eq]
    exact (total_storePrevious _ _).bind fun _ => (total_modify _).bind fun _ =>
      (total_modify _).bind fun _ => (total_modify _).bind fun _ => (total_modify _).bind fun _ =>
      (total_modify _).bind fun _ => (total_orFail_ok _).bind fun _ =>
      (total_modify _).bind fun _ => (total_orFail_ok _).bind fun _ =>
      (total_modify _).bind fun _ => total_pure _) h
  exact ⟨_, rfl, .forgedNext missing remote hnear (fun chain hc => (hcloses chain hc).2)
    hreceivingKeys hclosed⟩

/-- Every `decrypt_with` that fails was turned down by one of the checks of `Refused`; none
    panics. -/
theorem refused_of_error (lengths : TagRemoved P)
    (h : decryptWith P sealed nextRatchet s = .error failure s') :
    ∃ e, failure = .error e ∧ Refused P s sealed nextRatchet e := by
  rw [decryptWith, get_bind] at h
  cases hposition : s.skipped.position (Header.parse sealed.frame) with
  | some index =>
    obtain ⟨older, entry, newer, hstore, rfl, -, -⟩ :=
      (SkippedKeys.position_eq_some_iff _ _ _).mp hposition
    have hkey : s.skipped.key older.length = some entry.key := by
      rw [hstore, SkippedKeys.key_append_cons]
    simp only [hposition, hkey, orPanic] at h
    rw [pure_bind_apply] at h
    obtain ⟨hclosed, rfl⟩ := opening_eq_error lengths (fun _ =>
      (total_modify _).bind fun _ => total_pure _) h
    exact ⟨_, rfl, .skipped hposition hkey hclosed⟩
  | none =>
    simp only [hposition] at h
    by_cases hremote : s.remoteRatchet = some (Header.parse sealed.frame).ratchet
    · rw [if_pos hremote] at h
      exact refused_inReceivingChain lengths hposition hremote h
    · rw [if_neg hremote] at h
      exact refused_afterRatchetStep lengths hposition hremote h

/-! ## encrypt_with -/

/-- A session that cannot seal: it has no sending chain, or has come to the end of it. -/
def Blocked (s : Session α σ) : Prop :=
  ∀ chain, s.sending = some chain → 2000 ≤ chain.next.toNat

omit [DecidableEq α] in
theorem encryptWith_of_blocked (hblocked : s.Blocked) (nonce : Nonce α) (plaintext : Plaintext α) :
    encryptWith P nonce plaintext s = .error (.error .sendingBlocked) s := by
  rw [encryptWith, get_bind]
  cases hsending : s.sending with
  | none => rfl
  | some chain =>
    have hlimit : chain.next ≥ chainLimit := by
      rw [ge_iff_le, UInt32.le_iff_toNat_le, chainLimit_toNat]
      exact hblocked chain hsending
    simp only [hlimit, if_true]
    rfl

omit [DecidableEq α] in
/-- A session that is not blocked fails to seal only if the AEAD does. -/
theorem encryptWith_of_not_blocked {nonce : Nonce α} {plaintext : Plaintext α}
    (hblocked : ¬ s.Blocked) (h : encryptWith P nonce plaintext s = .error failure s') :
    failure ≠ .error .sendingBlocked ∧ ¬ TotalSealing P := by
  unfold Blocked at hblocked
  push Not at hblocked
  obtain ⟨chain, hsending, hbelow⟩ := hblocked
  have hlimit : ¬ chain.next ≥ chainLimit := by
    rw [ge_iff_le, UInt32.le_iff_toNat_le, chainLimit_toNat]
    omega
  -- what total sealing would give here
  have hseals : TotalSealing P → _ := fun total => total (kdfChain P chain.key).1 nonce
    (s.nextHeader P chain).toBytes.toList plaintext
  rw [encryptWith, get_bind] at h
  simp only [hsending, hlimit, if_false, bind_eq_error_iff, orFailCrypto_eq_error_iff,
    orFailCrypto_eq_ok_iff, SecretKey.fromSlice_toList, orFail_eq_error_iff, orFail_eq_ok_iff,
    Cursor.intoChain_eq] at h
  rcases h with ⟨e, he, -⟩ | ⟨_, _, ⟨⟨⟩, rfl⟩, h⟩
  · cases he
  -- past the limit check, the sealing fails or the copy of its result panics
  rcases h with ⟨e, he, rfl, rfl⟩ | ⟨sealed, _, ⟨hsealed, rfl⟩, h⟩
  · refine ⟨by simp, ?_⟩
    intro total
    obtain ⟨ciphertext, hok⟩ := hseals total
    have hclash := he.symm.trans hok
    cases hclash
  rcases h with hcopy | ⟨ciphertext, _, hcopy, h⟩
  · unfold copyFromSlice at hcopy
    split at hcopy
    · exact absurd hcopy (pure_ne_error _)
    · rename_i hlen
      cases hcopy
      refine ⟨by simp, ?_⟩
      intro total
      obtain ⟨ciphertext, hok⟩ := hseals total
      have heq : sealed = ciphertext.toList := Except.ok.inj (hsealed.symm.trans hok)
      rw [heq] at hlen
      exact hlen Vector.length_toList
  -- nothing after the sealing can fail
  · rcases h with ⟨e, he, -⟩ | ⟨next, t, -, h⟩
    · cases he
    · rcases h with hmodify | ⟨_, t, -, hpure⟩
      · exact absurd hmodify (modify_ne_error _)
      · exact absurd hpure (pure_ne_error _)

omit [DecidableEq α] in
/-- `encrypt` reports a blocked session, when the RNG works, and nothing else as one. -/
theorem encrypt_eq_blocked_iff (nonce : Nonce α) (plaintext : Plaintext α) :
    (∃ s', encrypt P (.ok nonce) plaintext s = .error (.error .sendingBlocked) s') ↔
      s.Blocked := by
  refine ⟨?_, fun hblocked => ⟨s, encryptWith_of_blocked hblocked nonce plaintext⟩⟩
  rintro ⟨s', h⟩
  by_contra hblocked
  exact (encryptWith_of_not_blocked hblocked h).1 rfl

end Session

end Quietwire
