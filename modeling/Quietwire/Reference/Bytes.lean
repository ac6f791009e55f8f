/-
  Quietwire.Reference.Bytes

  The functions of the reference on byte strings of the right lengths: each gives
  the bytes that the Rust function gives.
-/
import Quietwire.Reference.Party
import Quietwire.Crypto.Hkdf
import Quietwire.Ratchet.SessionSpec

namespace Quietwire
namespace Reference

variable {α σ : Type} [Octet α] {P : Primitives α σ}

/-! ## Integers -/

theorem toBytes4_toNat (n : UInt32) :
    toBytes4 n.toNat = .ok (toLeBytes n : Vector α 4).toList := by
  have hlt : n.toNat < 2 ^ 32 := n.toNat_lt
  rw [toBytes4, if_pos hlt]
  rfl

theorem fromBytes_toList (bytes : Vector α 4) :
    fromBytes bytes.toList = (fromLeBytes bytes).toNat := by
  have hlist : bytes.toList = [bytes[0], bytes[1], bytes[2], bytes[3]] := by
    apply List.ext_getElem
    · simp
    · intro i hi _
      rw [Vector.length_toList] at hi
      have hcases : i = 0 ∨ i = 1 ∨ i = 2 ∨ i = 3 := by omega
      rcases hcases with rfl | rfl | rfl | rfl <;> simp
  have h0 := (Octet.toByte bytes[0]).toNat_lt
  have h1 := (Octet.toByte bytes[1]).toNat_lt
  have h2 := (Octet.toByte bytes[2]).toNat_lt
  have h3 := (Octet.toByte bytes[3]).toNat_lt
  rw [hlist, fromLeBytes, UInt32.toNat_ofNat']
  simp only [fromBytes, List.foldr_cons, List.foldr_nil]
  omega

/-! ## Key derivation -/

theorem kdfChain_toList (chainKey : Key α) : kdfChain P chainKey.toList =
    ((Quietwire.kdfChain P chainKey).1.toList, (Quietwire.kdfChain P chainKey).2.toList) := by
  rw [Quietwire.kdfChain, toList_slice, toList_slice, List.drop_zero, List.drop_zero]
  rfl

/-- One block of HMAC is enough for 64 bytes. -/
theorem hkdfSha512_of_le (standard : StandardHkdf P) (ikm salt info : List α) {len : Nat}
    (hpos : 0 < len) (hlen : len ≤ 64) :
    hkdfSha512 P ikm salt info len = .ok (P.hkdf ikm salt info len).toList := by
  have hloop : hkdfLoop P (P.hmac salt ikm).toList info len [] [] 1
      = .ok (P.hmac (P.hmac salt ikm).toList (info ++ [Octet.ofByte 1])).toList := by
    unfold hkdfLoop
    simp only [List.length_nil, List.nil_append, hpos, if_true]
    unfold hkdfLoop
    simp [Nat.not_lt.mpr hlen]
  rw [standard _ _ _ _ (by show len ≤ 255 * 64; omega), hkdfBytes_of_le _ _ _ _ hlen, toList_slice,
    hkdfSha512, hloop]
  rfl

theorem hkdfSha512_block (standard : StandardHkdf P) (ikm salt info : List α) :
    hkdfSha512 P ikm salt info 64 = .ok (P.hkdf ikm salt info 64).toList :=
  hkdfSha512_of_le standard ikm salt info (by decide) (by decide)

variable [DecidableEq α]

theorem x25519_toList (own : σ) (point : PublicKey α) (h : P.x25519 own point ≠ zeroBytes) :
    x25519 P own point.toList = .ok (P.x25519 own point).toList := by
  have hlen : point.toList.length = publicKeyLen := by simp
  have hpoint : (⟨point.toList.toArray, by simp⟩ : Vector α publicKeyLen) = point := rfl
  rw [x25519, dif_pos hlen, hpoint]
  simp only [h, if_false]

theorem kdfRoot_toList (standard : StandardHkdf P) {rootKey next : SecretKey α} {own : σ}
    {remote : PublicKey α} {start : Key α}
    (h : Quietwire.kdfRoot P rootKey own remote = .ok (next, start)) :
    kdfRoot P rootKey.toList own remote.toList = .ok (next.toList, start.toList) := by
  obtain ⟨hnonzero, rfl, rfl⟩ := (kdfRoot_eq_ok_iff P).mp h
  have hout := hkdfSha512_block standard (P.x25519 own remote).toList rootKey.toList
    (Quietwire.rootInfo : List α)
  rw [kdfRoot, x25519_toList own remote hnonzero]
  show (hkdfSha512 P (P.x25519 own remote).toList rootKey.toList rootInfo 64 >>= fun out =>
    pure (out.take 32, out.drop 32)) = _
  have hinfo : (rootInfo : Bytes α) = Quietwire.rootInfo := rfl
  rw [hinfo, hout, expandRoot, toList_slice, toList_slice, List.drop_zero]
  have hdrop : ((P.hkdf (P.x25519 own remote).toList rootKey.toList Quietwire.rootInfo
      64).toList.drop 32).take 32 = (P.hkdf (P.x25519 own remote).toList rootKey.toList
      Quietwire.rootInfo 64).toList.drop 32 := by
    apply List.take_of_length_le
    simp
  exact congrArg Except.ok (Prod.ext rfl hdrop.symm)

/-! ## Authenticated encryption -/

omit [DecidableEq α] [Octet α] in
theorem xchachaSeal_toList {key : SecretKey α} {nonce : Nonce α} {aad message sealed : List α}
    (h : aeadSeal P key nonce aad message = .ok sealed) :
    xchachaSeal P message aad nonce.toList key.toList = .ok sealed := by
  have hlen : key.toList.length = keyLen ∧ nonce.toList.length = nonceLen := by simp
  have hkey : (⟨key.toList.toArray, by simp⟩ : Vector α keyLen) = key := rfl
  have hnonce : (⟨nonce.toList.toArray, by simp⟩ : Vector α nonceLen) = nonce := rfl
  rw [xchachaSeal, dif_pos hlen, hkey, hnonce, (aeadSeal_eq_ok_iff P).mp h]

omit [DecidableEq α] [Octet α] in
theorem xchachaOpen_toList {key : SecretKey α} {nonce : Nonce α} {aad sealed message : List α}
    (h : aeadOpen P key nonce aad sealed = .ok message) :
    xchachaOpen P sealed aad nonce.toList key.toList = .ok message := by
  have hlen : key.toList.length = keyLen ∧ nonce.toList.length = nonceLen := by simp
  have hkey : (⟨key.toList.toArray, by simp⟩ : Vector α keyLen) = key := rfl
  have hnonce : (⟨nonce.toList.toArray, by simp⟩ : Vector α nonceLen) = nonce := rfl
  rw [xchachaOpen, dif_pos hlen, hkey, hnonce, (aeadOpen_eq_ok_iff P).mp h]

/-! ## Frames -/

omit [DecidableEq α] in
/-- The parts of a frame that `decrypt` cuts out. -/
theorem frame_parts (sealed : SealedFrame α) :
    sealed.frame.toList.take 40 = sealed.aad.toList ∧
    sealed.frame.toList.drop 40 = sealed.ciphertext.toList ∧
    (sealed.frame.toList.take 40).take 32 = (Header.parse sealed.frame).ratchet.toList ∧
    fromBytes (((sealed.frame.toList.take 40).take 40).drop 36)
      = (Header.parse sealed.frame).messageNumber.toNat := by
  refine ⟨?_, ?_, ?_, ?_⟩
  · rw [SealedFrame.aad, toList_slice, List.drop_zero]
  · rw [SealedFrame.ciphertext, toList_slice]
    symm
    apply List.take_of_length_le
    simp
  · rw [Header.parse, toList_slice, List.drop_zero, List.take_take]
    rfl
  · rw [Header.parse, ← fromBytes_toList, toList_slice, List.take_take, List.drop_take]
    rfl

omit [DecidableEq α] in
theorem frame_eq (sealed : SealedFrame α) :
    sealed.frame.toList = sealed.aad.toList ++ sealed.ciphertext.toList := by
  obtain ⟨htake, hdrop, -, -⟩ := frame_parts sealed
  rw [← htake, ← hdrop, List.take_append_drop]

/-! ## Chains kept in full -/

/-- The first `n` message keys of a chain and its chain key after them. -/
def keyList (P : Primitives α σ) (start : Key α) (n : Nat) : List (Bytes α) :=
  (List.range n).map (fun i => (messageKeyAt P start i).toList) ++ [(chainKeyAt P start n).toList]

omit [DecidableEq α] in
theorem keyList_length (start : Key α) (n : Nat) : (keyList P start n).length = n + 1 := by
  simp [keyList]

omit [DecidableEq α] in
/-- The loop of `message_key` extends a chain up to the message key that is asked for. -/
theorem messageKeyLoop_keyList (start : Key α) (n number : Nat) :
    messageKeyLoop P (keyList P start n) number = .ok (keyList P start (max n (number + 1))) := by
  -- by induction on how many keys are missing
  induction hmissing : number + 1 - n generalizing n with
  | zero =>
    have hmax : max n (number + 1) = n := by omega
    unfold messageKeyLoop
    rw [if_neg (by rw [keyList_length]; omega), hmax]
  | succ missing ih =>
    have hne : keyList P start n ≠ [] := by simp [keyList]
    have hlast : (keyList P start n).getLast hne = (chainKeyAt P start n).toList := by
      simp [keyList]
    have hfront : (keyList P start n).dropLast
        = (List.range n).map fun i => (messageKeyAt P start i).toList := by
      simp [keyList]
    have hnext : (keyList P start n).dropLast ++
        [(kdfChain P ((keyList P start n).getLast hne)).1,
          (kdfChain P ((keyList P start n).getLast hne)).2] = keyList P start (n + 1) := by
      rw [hlast, hfront, kdfChain_toList, ← chainKeyAt_succ]
      simp [keyList, List.range_succ, messageKeyAt]
    have hmax : max n (number + 1) = max (n + 1) (number + 1) := by omega
    unfold messageKeyLoop
    rw [if_pos (by rw [keyList_length]; omega), dif_neg hne]
    simp only [hnext, hmax]
    exact ih (n + 1) (by omega)

omit [DecidableEq α] in
theorem keyList_getElem? (start : Key α) {n number : Nat} (h : number < n) :
    (keyList P start n)[number]? = some (messageKeyAt P start number).toList := by
  rw [keyList, List.getElem?_append_left (by simpa using h), List.getElem?_map,
    List.getElem?_range h, Option.map_some]

end Reference
end Quietwire
