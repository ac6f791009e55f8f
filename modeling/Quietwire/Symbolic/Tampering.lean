/-
  Quietwire.Symbolic.Tampering

  Over the symbolic primitives a frame with a changed byte opens under no key.
-/
import Quietwire.Symbolic.Conversation
import Quietwire.Fuzz.RatchetSession

namespace Quietwire
namespace Symbolic

variable {sealed : SealedFrame Letter} {key : Key Letter} {plaintext : Plaintext Letter}

/-- The letter that the ciphertext of a frame starts with. -/
def firstLetter (sealed : SealedFrame Letter) : Letter := sealed.ciphertext[0]

theorem firstLetter_eq (sealed : SealedFrame Letter) :
    firstLetter sealed = sealed.frame[headerLen] := by
  rw [firstLetter, SealedFrame.ciphertext, slice_getElem _ _ _ _ _ (by decide)]

/-- The ciphertext of a frame that opens is the letter for all that it was sealed from. -/
theorem ciphertext_of_opens (h : Opens primitives key sealed plaintext) :
    sealed.ciphertext.toList = .sealed (code key.toList) (code sealed.nonce.toList)
      (code sealed.aad.toList) (code plaintext.toList) :: List.replicate 411 (.byte 0) := by
  have hseal := (aeadSeal_eq_ok_iff _).mp (aeadOpen_iff.mp h)
  have hlen : plaintext.toList.length + tagLen = 411 + 1 := by
    rw [Vector.length_toList, plaintextLen, tagLen]
  show sealed.ciphertext.toList = _
  rw [← Option.some.inj hseal, hlen, toList_padded_succ]

theorem firstLetter_of_opens (h : Opens primitives key sealed plaintext) :
    firstLetter sealed = .sealed (code key.toList) (code sealed.nonce.toList)
      (code sealed.aad.toList) (code plaintext.toList) := by
  have hletters := congrArg List.head? (ciphertext_of_opens h)
  rw [List.head?_cons, List.head?_eq_getElem?, Vector.getElem?_toList,
    Vector.getElem?_eq_getElem (by decide)] at hletters
  exact Option.some.inj hletters

/-- Frames that open are told apart by the first letters of their ciphertexts. -/
theorem eq_of_firstLetter {sealed' : SealedFrame Letter} {key' : Key Letter}
    {plaintext' : Plaintext Letter} (h : Opens primitives key sealed plaintext)
    (h' : Opens primitives key' sealed' plaintext')
    (hfirst : firstLetter sealed = firstLetter sealed') : sealed = sealed' := by
  have hletter := hfirst
  rw [firstLetter_of_opens h, firstLetter_of_opens h', Letter.sealed.injEq, code_inj, code_inj,
    code_inj, code_inj, Vector.toList_inj, Vector.toList_inj, Vector.toList_inj,
    Vector.toList_inj] at hletter
  obtain ⟨hkey, hnonce, haad, hplaintext⟩ := hletter
  refine SealedFrame.ext_parts hnonce haad (Vector.toList_inj.mp ?_)
  rw [ciphertext_of_opens h, ciphertext_of_opens h', hkey, hnonce, haad, hplaintext]

/-- A changed byte is a machine byte. -/
theorem firstLetter_tampered (sealed : SealedFrame Letter) (byte : Fin Fuzz.sealedLen)
    (xor : UInt8) : firstLetter (Fuzz.tampered sealed byte xor) = firstLetter sealed ∨
      ∃ b, firstLetter (Fuzz.tampered sealed byte xor) = .byte b := by
  rw [firstLetter_eq, firstLetter_eq]
  by_cases h : byte.val < nonceLen
  · rw [Fuzz.tampered, dif_pos h]
    exact .inl rfl
  · rw [Fuzz.tampered, dif_neg h]
    show (xorAt _ _ _ _)[headerLen] = _ ∨ ∃ b, (xorAt _ _ _ _)[headerLen] = _
    rw [xorAt, Vector.getElem_set]
    split
    · exact .inr ⟨_, rfl⟩
    · exact .inl rfl

/-- A frame with a changed byte opens under no key. -/
theorem closed_of_tampered (h : Opens primitives key sealed plaintext) (byte : Fin Fuzz.sealedLen)
    {xor : UInt8} (hxor : xor ≠ 0) (key' : Key Letter) (plaintext' : Plaintext Letter) :
    ¬ Opens primitives key' (Fuzz.tampered sealed byte xor) plaintext' := by
  intro hopens
  rcases firstLetter_tampered sealed byte xor with heq | ⟨b, hbyte⟩
  · have hsame := eq_of_firstLetter hopens h heq
    rcases Fuzz.tampered_cases sealed byte hxor with ⟨-, hnonce⟩ | ⟨-, hframe⟩
    · exact hnonce (by rw [hsame])
    · exact hframe (by rw [hsame])
  · rw [firstLetter_of_opens hopens] at hbyte
    cases hbyte

end Symbolic
end Quietwire
