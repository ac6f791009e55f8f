/-
  Quietwire.Ratchet.Chain

  Key derivation (`kdf_root`, `kdf_chain`), symmetric chains and the cursor that
  advances one.  A cursor works on a copy: nothing reaches the session until it
  is turned back into a `Chain`.

  The second half states what a cursor computes in closed form: a chain started
  from a key has a chain key and a message key at every position, and skipping
  collects the message keys of the positions passed over.
-/
import Quietwire.Ratchet.Wire
import Mathlib.Logic.Function.Iterate

namespace Quietwire

/-- `CHAIN_LIMIT`. -/
abbrev chainLimit : UInt32 := 2000
/-- `MAX_SKIP_PER_CHAIN`. -/
abbrev maxSkipPerChain : UInt32 := 1000
/-- `MAX_SKIPPED_TOTAL`. -/
abbrev maxSkippedTotal : Nat := 10000

/-- `ratchet::Error`. -/
inductive Error where
  | crypto (error : CryptoError)
  | sendingBlocked
  | tooFarAhead
  deriving DecidableEq, Repr

/-- `impl From<quietwire_crypto::Error> for Error`, applied by `?`. -/
def liftCrypto {β : Type} (result : Except CryptoError β) : Except Error β :=
  result.mapError Error.crypto

@[simp] theorem liftCrypto_ok {β : Type} (b : β) : liftCrypto (.ok b) = .ok b := rfl

@[simp] theorem liftCrypto_error {β : Type} (e : CryptoError) :
    liftCrypto (.error e : Except CryptoError β) = .error (.crypto e) := rfl

/-- `Key`: the 32 bytes of a chain key or of a message key. -/
abbrev Key (α : Type) := Vector α keyLen

variable {α σ : Type} [Octet α]

/-- The bytes of an ASCII literal. -/
def asciiBytes (text : String) : List α := text.toList.map fun c => Octet.ofByte c.toUInt8

/-- `ROOT_INFO`. -/
def rootInfo : List α := asciiBytes "QUIETWIRE-ROOT-v1"
/-- `MESSAGE_KEY_INPUT`. -/
def messageKeyInput : List α := [Octet.ofByte 0x01]
/-- `CHAIN_KEY_INPUT`. -/
def chainKeyInput : List α := [Octet.ofByte 0x02]

variable (P : Primitives α σ)

/-! ## Key derivation -/

/-- Returns the next root key and a new chain key. -/
def kdfRoot [DecidableEq α] (rootKey : SecretKey α) (own : σ) (remote : PublicKey α) :
    Except Error (SecretKey α × Key α) := do
  let shared ← liftCrypto (diffieHellman P own remote)
  let out ← liftCrypto (hkdfSha512 P shared.toList rootKey.toList rootInfo (2 * keyLen))
  let nextRootKey ← liftCrypto (SecretKey.fromSlice (slice out 0 keyLen (by decide)).toList)
  return (nextRootKey, slice out keyLen keyLen (by decide))

/-- Returns the message key and the next chain key. -/
def kdfChain (chainKey : Key α) : Key α × Key α :=
  let derive := fun input : List α => slice (P.hmac chainKey.toList input) 0 keyLen (by decide)
  (derive messageKeyInput, derive chainKeyInput)

/-- The root key and chain key that `kdf_root` expands from a shared secret. -/
def expandRoot (rootKey : SecretKey α) (shared : SecretKey α) : SecretKey α × Key α :=
  let out := P.hkdf shared.toList rootKey.toList rootInfo (2 * keyLen)
  (slice out 0 keyLen (by decide), slice out keyLen keyLen (by decide))

/-- `kdf_root` fails on a low-order point and nowhere else. -/
theorem kdfRoot_eq [DecidableEq α] (rootKey : SecretKey α) (own : σ) (remote : PublicKey α) :
    kdfRoot P rootKey own remote =
      if P.x25519 own remote = zeroBytes then .error (.crypto .invalidPublicKey)
      else .ok (expandRoot P rootKey (P.x25519 own remote)) := by
  unfold kdfRoot diffieHellman
  by_cases hzero : P.x25519 own remote = zeroBytes
  · simp only [hzero, if_true]
    rfl
  · have hlen : ¬ 255 * 64 < 2 * keyLen := by decide
    simp only [hzero, if_false, hkdfSha512, hlen]
    simp only [bind, Except.bind, liftCrypto_ok, SecretKey.fromSlice_toList, pure, Except.pure,
      expandRoot]

theorem kdfRoot_eq_ok_iff [DecidableEq α] {rootKey : SecretKey α} {own : σ}
    {remote : PublicKey α} {next : SecretKey α} {start : Key α} :
    kdfRoot P rootKey own remote = .ok (next, start) ↔
      P.x25519 own remote ≠ zeroBytes ∧
        next = (expandRoot P rootKey (P.x25519 own remote)).1 ∧
        start = (expandRoot P rootKey (P.x25519 own remote)).2 := by
  rw [kdfRoot_eq]
  by_cases hzero : P.x25519 own remote = zeroBytes
  · simp [hzero]
  · rw [if_neg hzero, Except.ok.injEq, Prod.ext_iff]
    exact ⟨fun ⟨hnext, hstart⟩ => ⟨hzero, hnext.symm, hstart.symm⟩,
      fun ⟨_, hnext, hstart⟩ => ⟨hnext.symm, hstart.symm⟩⟩

/-! ## Chains and cursors -/

/-- A symmetric chain: its key and the number of its next message. -/
structure Chain (α : Type) where
  key : SecretKey α
  next : UInt32
  deriving DecidableEq

omit [Octet α] in
def Chain.start (key : Key α) : Except Error (Chain α) := do
  let key ← liftCrypto (SecretKey.fromSlice key.toList)
  return { key, next := 0 }

/-- A chain being advanced, with the message keys passed over so far. -/
structure Cursor (α : Type) where
  key : Key α
  next : UInt32
  skipped : List (UInt32 × Key α)

/-- `u32::saturating_sub`. -/
def saturatingSub (a b : UInt32) : UInt32 := if b ≤ a then a - b else 0

namespace Cursor

omit [Octet α] in
def new (key : Key α) : Cursor α := { key, next := 0, skipped := [] }

omit [Octet α] in
def «at» (chain : Chain α) : Cursor α := { new chain.key with next := chain.next }

def nextMessageKey (cursor : Cursor α) : Key α × Cursor α :=
  let (messageKey, chainKey) := kdfChain P cursor.key
  (messageKey, { cursor with key := chainKey, next := cursor.next + 1 })

/-- The `while` loop of `skip_to`. -/
def skipWhile (cursor : Cursor α) (until_ : UInt32) : Cursor α :=
  if cursor.next < until_ then
    let number := cursor.next
    let advanced := cursor.nextMessageKey P
    skipWhile { advanced.2 with skipped := advanced.2.skipped ++ [(number, advanced.1)] } until_
  else cursor
termination_by until_.toNat - cursor.next.toNat
decreasing_by
  rename_i hlt
  have hnat := UInt32.lt_iff_toNat_lt.mp hlt
  have hmax := until_.toNat_lt
  simp only [nextMessageKey, UInt32.toNat_add, UInt32.toNat_one]
  omega

def skipTo (cursor : Cursor α) (until_ : UInt32) : Except Error (Cursor α) :=
  if until_ > chainLimit ∨ saturatingSub until_ cursor.next > maxSkipPerChain then
    .error .tooFarAhead
  else .ok (cursor.skipWhile P until_)

def messageKey (cursor : Cursor α) (number : UInt32) : Except Error (Key α × Cursor α) := do
  if number ≥ chainLimit then
    throw .tooFarAhead
  if number < cursor.next then
    throw (.crypto .authentication)
  let cursor ← cursor.skipTo P number
  return cursor.nextMessageKey P

omit [Octet α] in
def takeSkipped (cursor : Cursor α) : List (UInt32 × Key α) := cursor.skipped

omit [Octet α] in
def intoChain (cursor : Cursor α) : Except Error (Chain α) := do
  let key ← liftCrypto (SecretKey.fromSlice cursor.key.toList)
  return { key, next := cursor.next }

end Cursor

/-! ## Closed forms -/

/-- The chain key `n` steps after `start`. -/
def chainKeyAt (start : Key α) (n : Nat) : Key α := (fun key => (kdfChain P key).2)^[n] start

/-- The message key of the `n`-th message after `start`. -/
def messageKeyAt (start : Key α) (n : Nat) : Key α := (kdfChain P (chainKeyAt P start n)).1

/-- The numbered message keys of the `count` messages from number `first` on, in a
    chain whose key at `first` is `key`. -/
def messageKeysFrom (key : Key α) (first count : Nat) : List (UInt32 × Key α) :=
  (List.range count).map fun i => (UInt32.ofNat (first + i), messageKeyAt P key i)

@[simp] theorem chainKeyAt_zero (start : Key α) : chainKeyAt P start 0 = start := rfl

theorem chainKeyAt_succ (start : Key α) (n : Nat) :
    chainKeyAt P start (n + 1) = (kdfChain P (chainKeyAt P start n)).2 :=
  Function.iterate_succ_apply' _ _ _

theorem chainKeyAt_succ_left (start : Key α) (n : Nat) :
    chainKeyAt P start (n + 1) = chainKeyAt P (kdfChain P start).2 n :=
  Function.iterate_succ_apply _ _ _

theorem chainKeyAt_add (start : Key α) (m n : Nat) :
    chainKeyAt P start (m + n) = chainKeyAt P (chainKeyAt P start m) n := by
  rw [chainKeyAt, Nat.add_comm, Function.iterate_add_apply, chainKeyAt, chainKeyAt]

theorem messageKeyAt_add (start : Key α) (m n : Nat) :
    messageKeyAt P start (m + n) = messageKeyAt P (chainKeyAt P start m) n := by
  rw [messageKeyAt, chainKeyAt_add, messageKeyAt]

@[simp] theorem messageKeysFrom_zero (key : Key α) (first : Nat) :
    messageKeysFrom P key first 0 = [] := rfl

@[simp] theorem messageKeysFrom_length (key : Key α) (first count : Nat) :
    (messageKeysFrom P key first count).length = count := by
  simp [messageKeysFrom]

theorem messageKeysFrom_succ (key : Key α) (first count : Nat) :
    messageKeysFrom P key first (count + 1)
      = (UInt32.ofNat first, (kdfChain P key).1)
        :: messageKeysFrom P (kdfChain P key).2 (first + 1) count := by
  rw [messageKeysFrom, List.range_succ_eq_map, List.map_cons, List.map_map]
  refine congrArg₂ List.cons rfl (List.map_congr_left fun i _ => ?_)
  rw [Function.comp_apply, Nat.succ_eq_add_one, messageKeyAt, chainKeyAt_succ_left, messageKeyAt]
  rw [show first + (i + 1) = first + 1 + i by omega]

theorem saturatingSub_toNat (a b : UInt32) :
    (saturatingSub a b).toNat = a.toNat - b.toNat := by
  unfold saturatingSub
  split
  case isTrue h => rw [UInt32.toNat_sub_of_le _ _ h]
  case isFalse h =>
    have hlt : a.toNat < b.toNat := by
      simpa [UInt32.le_iff_toNat_le] using h
    simp only [UInt32.toNat_zero]
    omega

theorem chainLimit_toNat : chainLimit.toNat = 2000 := rfl

theorem maxSkipPerChain_toNat : maxSkipPerChain.toNat = 1000 := rfl

theorem toNat_ofNat_of_le {n : Nat} (h : n ≤ 2000) : (UInt32.ofNat n).toNat = n := by
  rw [UInt32.toNat_ofNat']
  omega

/-- The keys that a cursor collects are numbered upwards. -/
theorem pairwise_messageKeysFrom (key : Key α) {first count : Nat}
    (hcount : count = 0 ∨ first + count ≤ 2000) :
    ((messageKeysFrom P key first count).map Prod.fst).Pairwise (· < ·) := by
  rcases hcount with rfl | hcount
  · exact List.Pairwise.nil
  · rw [messageKeysFrom, List.map_map, List.pairwise_map]
    apply List.Pairwise.imp_of_mem _ List.pairwise_lt_range
    intro i j hi hj hlt
    rw [List.mem_range] at hi hj
    show UInt32.ofNat (first + i) < UInt32.ofNat (first + j)
    rw [UInt32.lt_iff_toNat_lt, toNat_ofNat_of_le (by omega), toNat_ofNat_of_le (by omega)]
    omega

theorem toNat_succ_of_lt {n m : UInt32} (h : n.toNat < m.toNat) :
    (n + 1).toNat = n.toNat + 1 := by
  have hm := m.toNat_lt
  rw [UInt32.toNat_add, UInt32.toNat_one]
  omega

namespace Cursor

/-- The loop of `skip_to` runs once for every number below `until`, collecting the
    message keys in order; it stops at once when the cursor is already there. -/
theorem skipWhile_eq (cursor : Cursor α) (until_ : UInt32) :
    cursor.skipWhile P until_ =
      { key := chainKeyAt P cursor.key (until_.toNat - cursor.next.toNat)
        next := if cursor.next < until_ then until_ else cursor.next
        skipped := cursor.skipped ++
          messageKeysFrom P cursor.key cursor.next.toNat (until_.toNat - cursor.next.toNat) } := by
  fun_induction skipWhile P cursor until_ with
  | case1 cursor hlt number advanced ih =>
    have hnat : cursor.next.toNat < until_.toNat := UInt32.lt_iff_toNat_lt.mp hlt
    have hnext : (cursor.next + 1).toNat = cursor.next.toNat + 1 := toNat_succ_of_lt hnat
    have hcount : until_.toNat - cursor.next.toNat
        = until_.toNat - (cursor.next.toNat + 1) + 1 := by omega
    have hstop : ¬ cursor.next + 1 < until_ → cursor.next + 1 = until_ := by
      rw [UInt32.lt_iff_toNat_lt, ← UInt32.toNat_inj, hnext]
      omega
    rw [ih]
    simp only [advanced, nextMessageKey, hnext, hcount, hlt, if_true]
    rw [List.append_assoc, messageKeysFrom_succ, chainKeyAt_succ_left, UInt32.ofNat_toNat,
      List.singleton_append, ite_eq_left_iff.mpr hstop]
  | case2 cursor hge =>
    have hnat : until_.toNat - cursor.next.toNat = 0 := by
      have := mt UInt32.lt_iff_toNat_lt.mpr hge
      omega
    simp only [hnat, hge, if_false, chainKeyAt_zero, messageKeysFrom_zero, List.append_nil]

/-- `skip_to` succeeds within the chain limit and the skip limit, and then moves the
    cursor forward to `until`, never back. -/
theorem skipTo_eq_ok_iff (cursor moved : Cursor α) (until_ : UInt32) :
    cursor.skipTo P until_ = .ok moved ↔
      until_.toNat ≤ 2000 ∧ until_.toNat - cursor.next.toNat ≤ 1000 ∧
        moved = cursor.skipWhile P until_ := by
  have hlimit : until_ > chainLimit ↔ ¬ until_.toNat ≤ 2000 := by
    rw [gt_iff_lt, UInt32.lt_iff_toNat_lt, chainLimit_toNat]
    omega
  have hskip : saturatingSub until_ cursor.next > maxSkipPerChain
      ↔ ¬ until_.toNat - cursor.next.toNat ≤ 1000 := by
    rw [gt_iff_lt, UInt32.lt_iff_toNat_lt, saturatingSub_toNat, maxSkipPerChain_toNat]
    omega
  unfold skipTo
  split
  case isTrue h =>
    rw [hlimit, hskip] at h
    simp only [reduceCtorEq, false_iff]
    rintro ⟨h1, h2, -⟩
    exact h.elim (· h1) (· h2)
  case isFalse h =>
    rw [hlimit, hskip] at h
    have h1 := Decidable.of_not_not (fun h1 => h (.inl h1))
    have h2 := Decidable.of_not_not (fun h2 => h (.inr h2))
    simp only [Except.ok.injEq, h1, h2, true_and]
    exact eq_comm

/-- What `message_key` returns: the key of message `number` with the cursor one past
    it, provided the number is below the chain limit, not yet passed and at most
    1 000 away. -/
theorem messageKey_eq_ok_iff (cursor moved : Cursor α) (number : UInt32) (key : Key α) :
    cursor.messageKey P number = .ok (key, moved) ↔
      number.toNat < 2000 ∧ cursor.next.toNat ≤ number.toNat ∧
        number.toNat - cursor.next.toNat ≤ 1000 ∧
        key = messageKeyAt P cursor.key (number.toNat - cursor.next.toNat) ∧
        moved =
          { key := chainKeyAt P cursor.key (number.toNat - cursor.next.toNat + 1)
            next := number + 1
            skipped := cursor.skipped ++ messageKeysFrom P cursor.key cursor.next.toNat
              (number.toNat - cursor.next.toNat) } := by
  unfold messageKey
  -- the limit and the passed numbers are refused before any key is derived
  by_cases hlimit : number ≥ chainLimit
  · have hnat : ¬ number.toNat < 2000 := by
      rw [ge_iff_le, UInt32.le_iff_toNat_le, chainLimit_toNat] at hlimit
      omega
    simp [hlimit, hnat, throw, throwThe, MonadExceptOf.throw, bind, Except.bind]
  by_cases hpassed : number < cursor.next
  · have hnat : ¬ cursor.next.toNat ≤ number.toNat := by
      rw [UInt32.lt_iff_toNat_lt] at hpassed
      omega
    simp [hlimit, hpassed, hnat, throw, throwThe, MonadExceptOf.throw, bind, Except.bind]
  have hnat : number.toNat < 2000 := by
    rw [ge_iff_le, UInt32.le_iff_toNat_le, chainLimit_toNat] at hlimit
    omega
  have hle : cursor.next.toNat ≤ number.toNat := by
    rw [UInt32.lt_iff_toNat_lt] at hpassed
    omega
  simp only [hlimit, hpassed, if_false, hnat, hle, true_and]
  -- past both checks, only the distance is left to `skipTo`
  cases hskip : cursor.skipTo P number with
  | error e =>
    have hfar : ¬ number.toNat - cursor.next.toNat ≤ 1000 := by
      intro hnear
      have hok := (skipTo_eq_ok_iff P cursor _ number).mpr ⟨by omega, hnear, rfl⟩
      rw [hskip] at hok
      cases hok
    simp [hfar, bind, Except.bind]
  | ok skipped =>
    obtain ⟨-, hnear, rfl⟩ := (skipTo_eq_ok_iff P cursor skipped number).mp hskip
    -- `skip_to` leaves the cursor at `number`, moved or not
    have hnext : (if cursor.next < number then number else cursor.next) = number := by
      split
      case isTrue => rfl
      case isFalse h =>
        apply UInt32.toNat_inj.mp
        rw [UInt32.lt_iff_toNat_lt] at h
        omega
    simp only [bind, Except.bind, pure, Except.pure, hnear, true_and, Except.ok.injEq,
      skipWhile_eq, nextMessageKey, hnext, Prod.mk.injEq, messageKeyAt, chainKeyAt_succ]
    exact and_congr eq_comm eq_comm

end Cursor

end Quietwire
