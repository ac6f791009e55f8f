/-
  Quietwire.Secrecy.Taint

  An attacker that also seals and opens, over the symbolic primitives, and what it
  cannot get.

  The letters of some secret parts taint every HMAC computed from them.  A text is
  hidden from the attacker when it has a tainted letter, or a ciphertext under a
  tainted key that nobody has sent, or a ciphertext of a hidden text under a key
  that is not tainted.  No rule gives a hidden value without a hidden premise.
-/
import Quietwire.Secrecy.Handshake

namespace Quietwire
namespace Symbolic

/-- What an attacker on frames computes: all that an attacker on handshakes does, and both
    directions of the AEAD. -/
inductive FrameRule : List Value → Value → Prop
  | compute {premises : List Value} {value : Value} (h : Rule premises value) :
      FrameRule premises value
  | encrypt (key : SecretKey Letter) (nonce : Nonce Letter) (aad text : List Letter)
      {sealed : List Letter} (h : aeadSeal primitives key nonce aad text = .ok sealed) :
      FrameRule [.text key.toList, .text nonce.toList, .text aad, .text text] (.text sealed)
  | decrypt (key : SecretKey Letter) (nonce : Nonce Letter) (aad sealed : List Letter)
      {text : List Letter} (h : aeadOpen primitives key nonce aad sealed = .ok text) :
      FrameRule [.text key.toList, .text nonce.toList, .text aad, .text sealed] (.text text)

/-! ## Tainted letters -/

/-- A letter of a secret part, or an HMAC with such a letter in its key or message. -/
inductive Tainted (secret : Set Part) : Letter → Prop
  | part {part : Part} (h : part ∈ secret) : Tainted secret part.letter
  | macKey {second : Bool} {key message : List Letter} {l : Letter} (hl : l ∈ key)
      (h : Tainted secret l) : Tainted secret (.mac second (code key) (code message))
  | macMessage {second : Bool} {key message : List Letter} {l : Letter} (hl : l ∈ message)
      (h : Tainted secret l) : Tainted secret (.mac second (code key) (code message))

def TaintedText (secret : Set Part) (text : List Letter) : Prop := ∃ l ∈ text, Tainted secret l

variable {secret : Set Part}

/-- Apart from HMACs, only the letters of the parts are tainted. -/
theorem Tainted.exists_part {l : Letter} (h : Tainted secret l) (hmac : l.isMac = false) :
    ∃ part ∈ secret, l = part.letter := by
  cases h with
  | part hpart => exact ⟨_, hpart, rfl⟩
  | macKey hl h => cases hmac
  | macMessage hl h => cases hmac

theorem not_tainted_byte (b : UInt8) : ¬ Tainted secret (.byte b) := by
  intro h
  obtain ⟨part, -, hpart⟩ := h.exists_part rfl
  exact part.letter_ne_byte b hpart

/-- A tainted HMAC has a tainted key or message. -/
theorem Tainted.of_mac {second : Bool} {key message : List Letter}
    (h : Tainted secret (.mac second (code key) (code message))) :
    TaintedText secret key ∨ TaintedText secret message := by
  generalize hletter : Letter.mac second (code key) (code message) = l at h
  cases h with
  | part hpart => exact absurd hletter (Part.letter_ne_mac _ _ _ _)
  | macKey hl h =>
    rw [Letter.mac.injEq, code_inj, code_inj] at hletter
    obtain ⟨-, rfl, -⟩ := hletter
    exact .inl ⟨_, hl, h⟩
  | macMessage hl h =>
    rw [Letter.mac.injEq, code_inj, code_inj] at hletter
    obtain ⟨-, -, rfl⟩ := hletter
    exact .inr ⟨_, hl, h⟩

theorem taintedText_padded {n : Nat} {letter : Letter} (hpos : 0 < n) :
    TaintedText secret (padded n letter).toList ↔ Tainted secret letter := by
  constructor
  · rintro ⟨l, hl, h⟩
    rcases mem_padded hl with rfl | rfl
    · exact h
    · exact absurd h (not_tainted_byte 0)
  · exact fun h => ⟨letter, letter_mem_padded letter hpos, h⟩

theorem TaintedText.hmac_key {key message : List Letter} (h : TaintedText secret key) :
    TaintedText secret (Symbolic.hmac key message).toList := by
  obtain ⟨l, hl, htainted⟩ := h
  exact ⟨_, mac_mem_hmac key message, .macKey hl htainted⟩

theorem TaintedText.hmac_message {key message : List Letter} (h : TaintedText secret message) :
    TaintedText secret (Symbolic.hmac key message).toList := by
  obtain ⟨l, hl, htainted⟩ := h
  exact ⟨_, mac_mem_hmac key message, .macMessage hl htainted⟩

/-! ## Hidden values -/

/-- A letter that the attacker does not get, when the ciphertexts in `unsent` have not been
    sent. -/
inductive Hidden (secret : Set Part) (unsent : Letter → Prop) : Letter → Prop
  | tainted {l : Letter} (h : Tainted secret l) : Hidden secret unsent l
  | unsent {l : Letter} (h : unsent l) : Hidden secret unsent l
  | sealed {key nonce aad text : List Letter} {l : Letter} (hkey : ¬ TaintedText secret key)
      (hl : l ∈ text) (h : Hidden secret unsent l) :
      Hidden secret unsent (.sealed (code key) (code nonce) (code aad) (code text))

/-- Only ciphertexts under tainted keys count as not sent. -/
def UnderTaintedKeys (secret : Set Part) (unsent : Letter → Prop) : Prop :=
  ∀ l, unsent l → ∃ key nonce aad text, TaintedText secret key ∧
    l = .sealed (code key) (code nonce) (code aad) (code text)

/-- A value that the attacker does not get. -/
def HiddenValue (secret : Set Part) (unsent : Letter → Prop) : Value → Prop
  | .text letters => ∃ l ∈ letters, Hidden secret unsent l
  | value => ∃ part ∈ secret, part.Needs value

variable {unsent : Letter → Prop}

def Letter.isSealed : Letter → Bool
  | .sealed .. => true
  | _ => false

/-- Apart from ciphertexts, a letter is hidden when it is tainted. -/
theorem Hidden.tainted_of (hunsent : UnderTaintedKeys secret unsent) {l : Letter}
    (h : Hidden secret unsent l) (hsealed : l.isSealed = false) : Tainted secret l := by
  cases h with
  | tainted h => exact h
  | unsent h =>
    obtain ⟨_, _, _, _, -, rfl⟩ := hunsent _ h
    cases hsealed
  | sealed hkey hl h => cases hsealed

theorem Part.letter_ne_sealed (part : Part) (key nonce aad text : Nat) :
    Letter.sealed key nonce aad text ≠ part.letter := by
  intro h
  cases part with
  | agreement a b => cases h
  | encapsulation kem randomness => cases h

/-- What makes a ciphertext hidden. -/
theorem Hidden.of_sealed (hunsent : UnderTaintedKeys secret unsent)
    {key nonce aad text : List Letter}
    (h : Hidden secret unsent (.sealed (code key) (code nonce) (code aad) (code text))) :
    (TaintedText secret key ∧ unsent (.sealed (code key) (code nonce) (code aad) (code text))) ∨
      (¬ TaintedText secret key ∧ ∃ l ∈ text, Hidden secret unsent l) := by
  generalize hletter : Letter.sealed (code key) (code nonce) (code aad) (code text) = l at h
  cases h with
  | tainted h =>
    subst hletter
    obtain ⟨part, -, hpart⟩ := h.exists_part rfl
    exact absurd hpart (part.letter_ne_sealed _ _ _ _)
  | unsent h =>
    obtain ⟨key', _, _, _, hkey, heq⟩ := hunsent _ h
    rw [heq, Letter.sealed.injEq, code_inj] at hletter
    exact .inl ⟨hletter.1 ▸ hkey, h⟩
  | sealed hkey hl h =>
    simp only [Letter.sealed.injEq, code_inj] at hletter
    obtain ⟨rfl, -, -, rfl⟩ := hletter
    exact .inr ⟨hkey, _, hl, h⟩

/-- A padded letter that is no ciphertext is hidden when it is tainted. -/
theorem hidden_padded (hunsent : UnderTaintedKeys secret unsent) {n : Nat} {letter : Letter}
    (h : ∃ l ∈ (padded n letter).toList, Hidden secret unsent l)
    (hsealed : letter.isSealed = false) : Tainted secret letter := by
  obtain ⟨l, hl, hhidden⟩ := h
  rcases mem_padded hl with rfl | rfl
  · exact hhidden.tainted_of hunsent hsealed
  · exact absurd (hhidden.tainted_of hunsent rfl) (not_tainted_byte 0)

/-- A padded letter that is neither a secret part, nor a ciphertext, nor an HMAC is not hidden. -/
theorem not_hidden_padded (hunsent : UnderTaintedKeys secret unsent) {n : Nat} {letter : Letter}
    (hsealed : letter.isSealed = false) (hmac : letter.isMac = false)
    (hpart : ∀ part : Part, letter ≠ part.letter) :
    ¬ ∃ l ∈ (padded n letter).toList, Hidden secret unsent l := by
  intro h
  obtain ⟨part, -, hletter⟩ := (hidden_padded hunsent h hsealed).exists_part hmac
  exact hpart part hletter

theorem aeadSeal_letter {key : SecretKey Letter} {nonce : Nonce Letter}
    {aad text sealed : List Letter} (h : aeadSeal primitives key nonce aad text = .ok sealed) :
    sealed = (padded (text.length + tagLen)
      (.sealed (code key.toList) (code nonce.toList) (code aad) (code text))).toList :=
  (Option.some.inj ((aeadSeal_eq_ok_iff _).mp h)).symm

/-- A ciphertext is hidden as long as it is not sent, or its text is hidden. -/
theorem exists_hidden_premise_of_seal (hunsent : UnderTaintedKeys secret unsent)
    {key : SecretKey Letter} {nonce : Nonce Letter} {aad text sealed : List Letter}
    (hseal : aeadSeal primitives key nonce aad text = .ok sealed)
    (h : ∃ l ∈ sealed, Hidden secret unsent l) :
    TaintedText secret key.toList ∨ ∃ l ∈ text, Hidden secret unsent l := by
  rw [aeadSeal_letter hseal] at h
  obtain ⟨l, hl, hhidden⟩ := h
  rcases mem_padded hl with rfl | rfl
  · rcases hhidden.of_sealed hunsent with ⟨hkey, -⟩ | ⟨-, htext⟩
    · exact .inl hkey
    · exact .inr htext
  · exact absurd (hhidden.tainted_of hunsent rfl) (not_tainted_byte 0)

/-- No computation gives a hidden value from values that are not. -/
theorem rule_guarding (hunsent : UnderTaintedKeys secret unsent) :
    Guarding Rule (HiddenValue secret unsent) := by
  intro premises value happlies hhidden
  cases happlies with
  | byte b =>
    obtain ⟨l, hl, hletter⟩ := hhidden
    rw [List.mem_singleton.mp hl] at hletter
    exact absurd (hletter.tainted_of hunsent rfl) (not_tainted_byte b)
  | append s t =>
    obtain ⟨l, hl, hletter⟩ := hhidden
    rcases List.mem_append.mp hl with hs | ht
    · exact ⟨.text s, List.mem_cons_self, l, hs, hletter⟩
    · exact ⟨.text t, List.mem_cons_of_mem _ List.mem_cons_self, l, ht, hletter⟩
  | part s start len =>
    obtain ⟨l, hl, hletter⟩ := hhidden
    exact ⟨.text s, List.mem_cons_self, l, List.mem_of_mem_drop (List.mem_of_mem_take hl), hletter⟩
  | agree own point =>
    obtain ⟨base, exponents, hx⟩ := x25519_eq own point
    rw [hx] at hhidden
    obtain ⟨part, hpart, hletter⟩ := (hidden_padded hunsent hhidden rfl).exists_part rfl
    cases part with
    | agreement a b =>
      rw [hletter, Part.letter, ← x25519_publicKey] at hx
      exact ⟨.scalar own, List.mem_cons_self, _, hpart, (x25519_free hx).imp And.left And.left⟩
    | encapsulation kem randomness => cases hletter
  | hmac key message =>
    obtain ⟨l, hl, hletter⟩ := hhidden
    have hmac : ∃ second, l = .mac second (code key) (code message) ∨ l = .byte 0 := by
      rw [Symbolic.hmac, Vector.toList_append, List.mem_append] at hl
      rcases hl with hl | hl
      · exact ⟨false, mem_padded hl⟩
      · exact ⟨true, mem_padded hl⟩
    obtain ⟨second, rfl | rfl⟩ := hmac
    · rcases (hletter.tainted_of hunsent rfl).of_mac with ⟨l, hl, htainted⟩ | ⟨l, hl, htainted⟩
      · exact ⟨.text key, List.mem_cons_self, l, hl, .tainted htainted⟩
      · exact ⟨.text message, List.mem_cons_of_mem _ List.mem_cons_self, l, hl, .tainted htainted⟩
    · exact absurd (hletter.tainted_of hunsent rfl) (not_tainted_byte 0)
  | deriveKey context material =>
    refine absurd hhidden (not_hidden_padded hunsent rfl rfl fun part hletter => ?_)
    cases part <;> cases hletter
  | encapsulationKey kem =>
    refine absurd hhidden (not_hidden_padded hunsent rfl rfl fun part hletter => ?_)
    cases part <;> cases hletter
  | ciphertext key randomness =>
    refine absurd hhidden (not_hidden_padded hunsent rfl rfl fun part hletter => ?_)
    cases part <;> cases hletter
  | shared key randomness =>
    obtain ⟨part, hpart, hletter⟩ := (hidden_padded hunsent hhidden rfl).exists_part rfl
    cases part with
    | agreement a b => cases hletter
    | encapsulation kem randomness' =>
      obtain ⟨-, hrandomness⟩ := Letter.kemShared.inj hletter
      exact ⟨.randomness randomness, List.mem_cons_of_mem _ List.mem_cons_self, _, hpart,
        hrandomness⟩
  | decapsulate kem ciphertext =>
    rcases decapsulate_cases kem ciphertext with ⟨randomness, hgives⟩ | hgives
    · rw [hgives] at hhidden
      obtain ⟨part, hpart, hletter⟩ := (hidden_padded hunsent hhidden rfl).exists_part rfl
      cases part with
      | agreement a b => cases hletter
      | encapsulation kem' randomness' =>
        obtain ⟨hkey, -⟩ := Letter.kemShared.inj hletter
        have hkem := encapsulationKey_inj.mp (Vector.toList_inj.mp (code_inj.mp hkey))
        exact ⟨.kem kem, List.mem_cons_self, _, hpart, hkem⟩
    · rw [hgives] at hhidden
      refine absurd hhidden (not_hidden_padded hunsent rfl rfl fun part hletter => ?_)
      cases part <;> cases hletter

/-- Neither do sealing and opening. -/
theorem frameRule_guarding (hunsent : UnderTaintedKeys secret unsent) :
    Guarding FrameRule (HiddenValue secret unsent) := by
  intro premises value happlies hhidden
  cases happlies with
  | compute h => exact rule_guarding hunsent _ _ h hhidden
  | encrypt key nonce aad text h =>
    rcases exists_hidden_premise_of_seal hunsent h hhidden with ⟨l, hl, htainted⟩ | htext
    · exact ⟨.text key.toList, List.mem_cons_self, l, hl, .tainted htainted⟩
    · exact ⟨.text text, by simp, htext⟩
  | @decrypt key nonce aad sealed text h =>
    obtain ⟨l, hl, hletter⟩ := hhidden
    by_cases hkey : TaintedText secret key.toList
    · obtain ⟨l', hl', htainted⟩ := hkey
      exact ⟨.text key.toList, List.mem_cons_self, l', hl', .tainted htainted⟩
    · -- the ciphertext of a hidden text is hidden
      have hsealed : Hidden secret unsent (.sealed (code key.toList) (code nonce.toList)
          (code aad) (code text)) := .sealed hkey hl hletter
      refine ⟨.text sealed, by simp, _, ?_, hsealed⟩
      rw [aeadSeal_letter (aeadOpen_iff.mp h)]
      exact letter_mem_padded _ (Nat.succ_pos _)

/-- What is hidden does not follow from values that are not. -/
theorem not_derives_hidden (hunsent : UnderTaintedKeys secret unsent) {known : Set Value}
    (hknown : ∀ v ∈ known, ¬ HiddenValue secret unsent v) {value : Value}
    (hhidden : HiddenValue secret unsent value) : ¬ Derives FrameRule known value :=
  fun h => h.not_guarded (frameRule_guarding hunsent) hknown hhidden

/-! ## The keys of a session -/

/-- Everything derived from a tainted root key is tainted. -/
theorem tainted_expandRoot {rootKey : SecretKey Letter} (h : TaintedText secret rootKey.toList)
    (shared : SecretKey Letter) :
    TaintedText secret (expandRoot primitives rootKey shared).1.toList ∧
      TaintedText secret (expandRoot primitives rootKey shared).2.toList := by
  have hextracted : TaintedText secret (extracted rootKey shared) := h.hmac_key
  obtain ⟨l, hl, htainted⟩ := hextracted
  rw [expandRoot_eq]
  exact ⟨(taintedText_padded (by decide)).mpr (.macKey hl htainted),
    (taintedText_padded (by decide)).mpr (.macKey hl htainted)⟩

theorem tainted_kdfChain {key : Key Letter} (h : TaintedText secret key.toList) :
    TaintedText secret (kdfChain primitives key).1.toList ∧
      TaintedText secret (kdfChain primitives key).2.toList := by
  obtain ⟨l, hl, htainted⟩ := h
  rw [kdfChain_eq]
  exact ⟨(taintedText_padded (by decide)).mpr (.macKey hl htainted),
    (taintedText_padded (by decide)).mpr (.macKey hl htainted)⟩

theorem tainted_messageKeyAt {start : Key Letter} (h : TaintedText secret start.toList) (n : Nat) :
    TaintedText secret (messageKeyAt primitives start n).toList := by
  have hchain : TaintedText secret (chainKeyAt primitives start n).toList := by
    induction n with
    | zero => exact h
    | succ n ih =>
      rw [chainKeyAt_succ]
      exact (tainted_kdfChain ih).2
  exact (tainted_kdfChain hchain).1

/-- A key derived from key material with a tainted secret in it is tainted. -/
theorem tainted_sharedKey {input : KeyInput Letter}
    (h : TaintedText secret (keyMaterial input.secrets)) :
    TaintedText secret (input.sharedKey primitives hybrid).toList := by
  have hextracted : TaintedText secret (extractedKey input) := h.hmac_message
  obtain ⟨l, hl, htainted⟩ := hextracted
  rw [sharedKey_eq]
  exact (taintedText_padded (by decide)).mpr (.macKey hl htainted)

end Symbolic
end Quietwire
