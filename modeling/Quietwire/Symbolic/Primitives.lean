/-
  Quietwire.Symbolic.Primitives

  The primitives as free constructors.  The alphabet has, beside the machine
  bytes, one letter for every application of HMAC, X25519, the AEAD, BLAKE3 and
  ML-KEM, and an output is that letter padded with zero bytes to its length.  The arguments
  in a letter are byte strings, by their number in an enumeration of all strings.
  Products of exponents are kept in order, so that Diffie-Hellman commutes.
-/
import Quietwire.Crypto.Hkdf
import Quietwire.Ratchet.Eras
import Mathlib.Logic.Encodable.Basic
import Mathlib.Logic.Equiv.List
import Mathlib.Tactic.DeriveEncodable
import Mathlib.Data.List.Sort

namespace Quietwire
namespace Symbolic

instance encodableByte : Encodable UInt8 :=
  Encodable.ofLeftInverse UInt8.toNat UInt8.ofNat fun _ => UInt8.ofNat_toNat

inductive Letter where
  | byte (b : UInt8)
  /-- A point on the curve: a base point raised to private keys. -/
  | point (base : Nat) (exponents : List Nat)
  /-- The first or the second half of an HMAC. -/
  | mac (second : Bool) (key message : Nat)
  | sealed (key nonce aad plaintext : Nat)
  | digest (context material : Nat)
  | kemKey (kem : Nat)
  | kemCiphertext (key randomness : Nat)
  | kemShared (key randomness : Nat)
  /-- What decapsulation gives on a ciphertext that was not made for the key. -/
  | kemRejected (kem ciphertext : Nat)
  deriving DecidableEq, Encodable

instance : Octet Letter where
  ofByte := .byte
  toByte
    | .byte b => b
    | _ => 0
  toByte_ofByte _ := rfl

/-- The number of a byte string. -/
def code (text : List Letter) : Nat := Encodable.encode text

theorem code_inj {s t : List Letter} : code s = code t ↔ s = t :=
  Encodable.encode_inj

theorem decode_code (text : List Letter) :
    (Encodable.decode (code text) : Option (List Letter)) = some text :=
  Encodable.encodek text

attribute [irreducible] code

/-! ## Padded letters -/

/-- `n` letters: the given one, and zero bytes. -/
def padded (n : Nat) (letter : Letter) : Vector Letter n :=
  Vector.ofFn fun i => if i.val = 0 then letter else .byte 0

@[simp] theorem padded_getElem_zero {n : Nat} (letter : Letter) (h : 0 < n) :
    (padded n letter)[0] = letter := by
  simp [padded]

@[simp] theorem padded_head (letter : Letter) : (padded 32 letter).head = letter :=
  padded_getElem_zero letter (by decide)

theorem toList_padded_succ (n : Nat) (letter : Letter) :
    (padded (n + 1) letter).toList = letter :: List.replicate n (Letter.byte 0) := by
  rw [padded, Vector.toList_ofFn, List.ofFn_succ]
  simp

theorem mem_padded {n : Nat} {letter l : Letter} (h : l ∈ (padded n letter).toList) :
    l = letter ∨ l = .byte 0 := by
  cases n with
  | zero =>
    have hpos := List.length_pos_of_mem h
    rw [Vector.length_toList] at hpos
    cases hpos
  | succ n =>
    rw [toList_padded_succ, List.mem_cons] at h
    exact h.imp_right List.eq_of_mem_replicate

theorem letter_mem_padded (letter : Letter) {n : Nat} (hpos : 0 < n) :
    letter ∈ (padded n letter).toList := by
  obtain ⟨m, rfl⟩ := Nat.exists_eq_succ_of_ne_zero (Nat.ne_of_gt hpos)
  rw [toList_padded_succ]
  exact List.mem_cons_self

theorem padded_inj {n : Nat} (hpos : 0 < n) {a b : Letter} : padded n a = padded n b ↔ a = b := by
  refine ⟨fun h => ?_, fun h => h ▸ rfl⟩
  rw [← padded_getElem_zero a hpos, ← padded_getElem_zero b hpos, h]

attribute [irreducible] padded

/-! ## The primitives -/

/-- Both halves of an HMAC. -/
def hmac (key message : List Letter) : Vector Letter hmacSha512Len :=
  padded 32 (.mac false (code key) (code message)) ++
    padded 32 (.mac true (code key) (code message))

/-- A point is raised to one private key more. -/
def x25519 (own : Nat) (point : Vector Letter 32) : Vector Letter 32 :=
  match point.head with
  | .point base exponents =>
    if point = padded 32 (.point base exponents) then
      padded 32 (.point base (exponents.orderedInsert (· ≤ ·) own))
    else padded 32 (.point (code point.toList) [own])
  | _ => padded 32 (.point (code point.toList) [own])

/-- Ciphertext and tag are a letter that only the same key, nonce and associated data
    open. -/
def aeadEncrypt (key : SecretKey Letter) (nonce : Nonce Letter) (msg aad : List Letter) :
    Option (List Letter) :=
  some (padded (msg.length + tagLen)
    (.sealed (code key.toList) (code nonce.toList) (code aad) (code msg))).toList

def aeadDecrypt (key : SecretKey Letter) (nonce : Nonce Letter) (msg aad : List Letter) :
    Option (List Letter) :=
  match msg with
  | .sealed _ _ _ plaintext :: _ =>
    (Encodable.decode plaintext).filter fun text => aeadEncrypt key nonce text aad = some msg
  | _ => none

/-- Private keys are numbers. -/
def primitives : Primitives Letter Nat where
  x25519
  hmac
  hkdf := hkdfBytes hmac
  aeadEncrypt
  aeadDecrypt

theorem primitives_x25519 : primitives.x25519 = x25519 := rfl

/-! ## Diffie-Hellman -/

theorem x25519_point (own base : Nat) (exponents : List Nat) :
    x25519 own (padded 32 (.point base exponents))
      = padded 32 (.point base (exponents.orderedInsert (· ≤ ·) own)) := by
  simp [x25519]

/-- The output of X25519 is a point, raised to the private key last. -/
theorem x25519_cases (own : Nat) (point : Vector Letter 32) :
    (∃ base exponents, point = padded 32 (.point base exponents) ∧
      x25519 own point = padded 32 (.point base (exponents.orderedInsert (· ≤ ·) own))) ∨
    x25519 own point = padded 32 (.point (code point.toList) [own]) := by
  unfold x25519
  split
  · next base exponents _ =>
    split
    · next hpoint => exact .inl ⟨base, exponents, hpoint, rfl⟩
    · exact .inr rfl
  · exact .inr rfl

/-- The number of the base point. -/
def basepoint : Nat := code (basepointBytes : Vector Letter 32).toList

theorem publicKey_eq (own : Nat) :
    publicKey primitives own = padded 32 (.point basepoint [own]) := by
  have hbyte : (basepointBytes : Vector Letter 32)[0] = .byte 9 := by
    simp [basepointBytes, Octet.ofByte]
  rcases x25519_cases own basepointBytes with ⟨base, exponents, hpoint, -⟩ | hx
  · rw [hpoint, padded_getElem_zero] at hbyte
    cases hbyte
  · rw [publicKey, primitives_x25519, hx, basepoint]

theorem publicKey_inj {a b : Nat} : publicKey primitives a = publicKey primitives b ↔ a = b := by
  rw [publicKey_eq, publicKey_eq, padded_inj (by decide), Letter.point.injEq, List.singleton_inj]
  exact and_iff_right rfl

theorem x25519_publicKey (own other : Nat) : primitives.x25519 own (publicKey primitives other)
    = padded 32 (.point basepoint ([other].orderedInsert (· ≤ ·) own)) := by
  rw [publicKey_eq, primitives_x25519, x25519_point]

theorem x25519_commutes (a b : Nat) : primitives.x25519 a (publicKey primitives b)
    = primitives.x25519 b (publicKey primitives a) := by
  rw [x25519_publicKey, x25519_publicKey, padded_inj (by decide), Letter.point.injEq]
  refine ⟨rfl, ?_⟩
  rcases Nat.lt_trichotomy a b with hlt | rfl | hlt
  · simp [Nat.le_of_lt hlt, hlt]
  · rfl
  · simp [Nat.le_of_lt hlt, hlt]

/-- A shared secret tells the two private keys it was agreed with. -/
theorem x25519_free {a b c : Nat} {point : Vector Letter 32}
    (h : primitives.x25519 a point = primitives.x25519 b (publicKey primitives c)) :
    a = b ∧ point = publicKey primitives c ∨ a = c ∧ point = publicKey primitives b := by
  rw [x25519_publicKey] at h
  rw [publicKey_eq, publicKey_eq]
  rcases x25519_cases a point with ⟨base, exponents, hpoint, hx⟩ | hx
  · have hpoints := hx.symm.trans h
    rw [padded_inj (by decide), Letter.point.injEq] at hpoints
    obtain ⟨rfl, hexponents⟩ := hpoints
    have hperm : (a :: exponents).Perm [b, c] :=
      (List.perm_orderedInsert _ a exponents).symm.trans
        (hexponents ▸ List.perm_orderedInsert _ b [c])
    rcases List.mem_pair.mp (hperm.subset List.mem_cons_self) with rfl | rfl
    · obtain rfl := List.perm_singleton.mp hperm.cons_inv
      exact .inl ⟨rfl, hpoint⟩
    · obtain rfl := List.perm_singleton.mp (hperm.trans (List.Perm.swap _ _ _)).cons_inv
      exact .inr ⟨rfl, hpoint⟩
  · have hpoints := hx.symm.trans h
    rw [padded_inj (by decide), Letter.point.injEq] at hpoints
    have hlen := congrArg List.length hpoints.2
    rw [List.orderedInsert_length] at hlen
    cases hlen

/-! ## Authenticated encryption -/

theorem aeadDecrypt_eq_some_iff {key : SecretKey Letter} {nonce : Nonce Letter}
    {msg aad text : List Letter} :
    aeadDecrypt key nonce msg aad = some text ↔ aeadEncrypt key nonce text aad = some msg := by
  constructor
  · intro h
    unfold aeadDecrypt at h
    split at h
    · rw [Option.filter_eq_some_iff] at h
      simpa using h.2
    · cases h
  · intro h
    have hmsg := h
    have hlen : text.length + tagLen = text.length + 15 + 1 := rfl
    rw [aeadEncrypt, Option.some.injEq, hlen, toList_padded_succ] at hmsg
    rw [← hmsg, aeadDecrypt, hmsg, Option.filter_eq_some_iff]
    exact ⟨decode_code text, by simpa using h⟩

/-- What opens is exactly what was sealed. -/
theorem aeadOpen_iff {key : SecretKey Letter} {nonce : Nonce Letter}
    {aad sealed text : List Letter} : aeadOpen primitives key nonce aad sealed = .ok text ↔
      aeadSeal primitives key nonce aad text = .ok sealed := by
  rw [aeadOpen_eq_ok_iff, aeadSeal_eq_ok_iff]
  exact aeadDecrypt_eq_some_iff

/-- A ciphertext tells its key and its plaintext. -/
theorem aeadSeal_inj {key key' : SecretKey Letter} {nonce nonce' : Nonce Letter}
    {aad aad' sealed text text' : List Letter}
    (h : aeadSeal primitives key nonce aad text = .ok sealed)
    (h' : aeadSeal primitives key' nonce' aad' text' = .ok sealed) :
    key = key' ∧ text = text' := by
  have hseal := (aeadSeal_eq_ok_iff _).mp h
  have hseal' := (aeadSeal_eq_ok_iff _).mp h'
  have hletters := Option.some.inj (hseal.trans hseal'.symm)
  have hlen : ∀ t : List Letter, t.length + tagLen = t.length + 15 + 1 := fun _ => rfl
  rw [hlen, hlen, toList_padded_succ, toList_padded_succ, List.cons_eq_cons,
    Letter.sealed.injEq] at hletters
  exact ⟨Vector.toList_inj.mp (code_inj.mp hletters.1.1), code_inj.mp hletters.1.2.2.2⟩

theorem correct : CorrectPrimitives primitives where
  opens_sealed _ _ _ _ _ h := aeadOpen_iff.mpr h
  commutes := x25519_commutes
  contributory a b h := by
    rw [x25519_publicKey] at h
    have hfirst := congrArg (fun v : Vector Letter 32 => v[0]) h
    simp [zeroBytes, Octet.ofByte] at hfirst

theorem total : TotalSealing primitives := by
  intro key nonce aad plaintext
  refine ⟨(padded (plaintext.toList.length + tagLen) (.sealed (code key.toList)
    (code nonce.toList) (code aad) (code plaintext.toList))).cast (by simp), ?_⟩
  rw [Vector.toList_cast]
  rfl

/-- Opening takes off the tag. -/
theorem length_of_opens {key : SecretKey Letter} {nonce : Nonce Letter}
    {aad sealed text : List Letter} (h : aeadOpen primitives key nonce aad sealed = .ok text) :
    text.length + tagLen = sealed.length := by
  have hseal := (aeadSeal_eq_ok_iff _).mp (aeadOpen_iff.mp h)
  rw [← Option.some.inj hseal, Vector.length_toList]

/-! ## Key derivation -/

theorem kdfChain_eq (key : Key Letter) : kdfChain primitives key =
    (padded 32 (.mac false (code key.toList) (code messageKeyInput)),
      padded 32 (.mac false (code key.toList) (code chainKeyInput))) := by
  refine Prod.ext ?_ ?_
  · exact slice_append_left (m := 32) (n := 32) _ _ _
  · exact slice_append_left (m := 32) (n := 32) _ _ _

/-- The key that the extract phase of `kdf_root` gives. -/
def extracted (rootKey shared : SecretKey Letter) : List Letter :=
  (hmac rootKey.toList shared.toList).toList

theorem expandRoot_eq (rootKey shared : SecretKey Letter) : expandRoot primitives rootKey shared =
    (padded 32 (.mac false (code (extracted rootKey shared)) (code (rootInfo ++ [.byte 1]))),
      padded 32 (.mac true (code (extracted rootKey shared)) (code (rootInfo ++ [.byte 1])))) := by
  have hout : primitives.hkdf shared.toList rootKey.toList rootInfo (2 * keyLen)
      = hmac (extracted rootKey shared) (rootInfo ++ [.byte 1]) := hkdfBytes_block _ _ _ _
  rw [expandRoot, hout]
  refine Prod.ext ?_ ?_
  · exact slice_append_left (m := 32) (n := 32) _ _ _
  · exact slice_append_right (m := 32) (n := 32) _ _ _

theorem hmac_inj {key message key' message' : List Letter}
    (h : hmac key message = hmac key' message') : key = key' ∧ message = message' := by
  have hfirst := congrArg (fun v => slice v 0 32 (by decide)) h
  simp only [hmac, slice_append_left, padded_inj (show 0 < 32 by decide), Letter.mac.injEq,
    code_inj] at hfirst
  exact hfirst.2

theorem extracted_inj {r s r' s' : SecretKey Letter} :
    extracted r s = extracted r' s' ↔ r = r' ∧ s = s' := by
  refine ⟨fun h => ?_, fun ⟨hr, hs⟩ => hr ▸ hs ▸ rfl⟩
  obtain ⟨hr, hs⟩ := hmac_inj (Vector.toList_inj.mp h)
  exact ⟨Vector.toList_inj.mp hr, Vector.toList_inj.mp hs⟩

theorem input_ne : (messageKeyInput : List Letter) ≠ chainKeyInput := by
  decide

theorem rootInfo_ne (b : Letter) : rootInfo ++ [Letter.byte 1] ≠ [b] := by
  intro h
  have hlen := congrArg List.length h
  rw [List.length_append] at hlen
  have hinfo : (rootInfo : List Letter).length = 17 := by
    decide
  rw [hinfo] at hlen
  cases hlen

/-- Halves of HMACs agree only on the same half, key and message. -/
theorem half_inj {second second' : Bool} {key message key' message' : List Letter} :
    padded 32 (.mac second (code key) (code message))
      = padded 32 (.mac second' (code key') (code message')) ↔
    second = second' ∧ key = key' ∧ message = message' := by
  rw [padded_inj (by decide), Letter.mac.injEq, code_inj, code_inj]

theorem free : FreeKdf primitives where
  -- an output is a half with its input in it, so equal outputs have equal inputs
  message_inj k k' h := by
    rw [kdfChain_eq, kdfChain_eq, half_inj] at h
    exact Vector.toList_inj.mp h.2.1
  chain_inj k k' h := by
    rw [kdfChain_eq, kdfChain_eq, half_inj] at h
    exact Vector.toList_inj.mp h.2.1
  root_inj r s r' s' h := by
    rw [expandRoot_eq, expandRoot_eq, half_inj] at h
    exact extracted_inj.mp h.2.1
  start_inj r s r' s' h := by
    rw [expandRoot_eq, expandRoot_eq, half_inj] at h
    exact extracted_inj.mp h.2.1
  message_ne_chain k k' h := by
    rw [kdfChain_eq, kdfChain_eq, half_inj] at h
    exact input_ne h.2.2
  message_ne_root k r s h := by
    rw [kdfChain_eq, expandRoot_eq, half_inj] at h
    exact rootInfo_ne _ h.2.2.symm
  message_ne_start k r s h := by
    rw [kdfChain_eq, expandRoot_eq, half_inj] at h
    exact rootInfo_ne _ h.2.2.symm
  chain_ne_root k r s h := by
    rw [kdfChain_eq, expandRoot_eq, half_inj] at h
    exact rootInfo_ne _ h.2.2.symm
  chain_ne_start k r s h := by
    rw [kdfChain_eq, expandRoot_eq, half_inj] at h
    exact rootInfo_ne _ h.2.2.symm
  root_ne_start r s r' s' h := by
    rw [expandRoot_eq, expandRoot_eq, half_inj] at h
    exact Bool.false_ne_true h.1

/-- A key of machine bytes, as the two parties may have agreed on. -/
def sharedKey : SecretKey Letter := Vector.replicate 32 (.byte 7)

/-- A key of machine bytes is no output of key derivation. -/
theorem fresh_replicate (b : UInt8) :
    FreshSharedKey primitives (Vector.replicate 32 (.byte b)) := by
  intro r s h
  rw [expandRoot_eq] at h
  have hfirst := congrArg (fun v : Vector Letter 32 => v[0]) h
  simp at hfirst

theorem fresh : FreshSharedKey primitives sharedKey := fresh_replicate 7

/-! ## Inputs -/

def nonce : Nonce Letter := Vector.replicate 24 (.byte 0)

def plaintext : Plaintext Letter := Vector.replicate 396 (.byte 0)

end Symbolic
end Quietwire
