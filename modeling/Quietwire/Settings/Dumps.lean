/-
  Quietwire.Settings.Dumps

  `json.dumps` with its defaults, and that it is injective: a text is the text of one
  value only, members in their order and numbers as they are.

  Every printer here says where its text ends (`Framing.Unambiguous`): a string by its
  closing quote, a list or dictionary by its bracket, a number by what may follow it.
-/
import Quietwire.Settings.Json
import Quietwire.Support.Framing

namespace Quietwire
namespace Settings

open Framing

/-! ## Characters -/

/-- The four lower-case hexadecimal digits of `%04x`. -/
def hex4 (n : Nat) : List Char :=
  [(n / 4096 % 16).digitChar, (n / 256 % 16).digitChar, (n / 16 % 16).digitChar,
    (n % 16).digitChar]

/-- One character between the quotes, with `ensure_ascii`: beyond the Basic Multilingual Plane
    it is a pair of surrogates. -/
def escape (c : Char) : List Char :=
  if c = '\x22' then ['\x5c', '\x22']
  else if c = '\x5c' then ['\x5c', '\x5c']
  else if c = '\x08' then ['\x5c', 'b']
  else if c = '\x0c' then ['\x5c', 'f']
  else if c = '\n' then ['\x5c', 'n']
  else if c = '\r' then ['\x5c', 'r']
  else if c = '\t' then ['\x5c', 't']
  else if ' ' ≤ c ∧ c ≤ '~' then [c]
  else if c.toNat < 0x10000 then '\x5c' :: 'u' :: hex4 c.toNat
  else
    let n := c.toNat - 0x10000
    '\x5c' :: 'u' :: hex4 (0xd800 + n / 1024) ++ '\x5c' :: 'u' :: hex4 (0xdc00 + n % 1024)

def readDigit (c : Char) : Option Nat := (List.range 16).find? fun n => n.digitChar == c

def readHex4 : List Char → Option (Nat × List Char)
  | a :: b :: c :: d :: rest => do
    let a ← readDigit a
    let b ← readDigit b
    let c ← readDigit c
    let d ← readDigit d
    pure (a * 4096 + b * 256 + c * 16 + d, rest)
  | _ => none

theorem readDigit_digitChar {n : Nat} (h : n < 16) : readDigit n.digitChar = some n := by
  have hall : ∀ n < 16, readDigit n.digitChar = some n := by decide
  exact hall n h

theorem readHex4_hex4 {n : Nat} (h : n < 65536) (rest : List Char) :
    readHex4 (hex4 n ++ rest) = some (n, rest) := by
  have hsum : n / 4096 % 16 * 4096 + n / 256 % 16 * 256 + n / 16 % 16 * 16 + n % 16 = n := by
    omega
  have hlt : ∀ m, m % 16 < 16 := fun m => Nat.mod_lt m (by decide)
  simp only [hex4, List.cons_append, List.nil_append, readHex4, readDigit_digitChar (hlt _),
    Option.bind_eq_bind, Option.bind_some, hsum]
  rfl

def fromSurrogates (high low : Nat) : Char :=
  Char.ofNat (0x10000 + (high - 0xd800) * 1024 + (low - 0xdc00))

/-- The second of a pair of surrogates, and the character of the pair. -/
def readLow (high : Nat) (text : List Char) : Option (Char × List Char) :=
  (readHex4 text).map fun low => (fromSurrogates high low.1, low.2)

/-- The character behind a `\u` escape, or a pair of them. -/
def readUnicode (text : List Char) : Option (Char × List Char) :=
  (readHex4 text).bind fun n =>
    if 0xd800 ≤ n.1 ∧ n.1 < 0xdc00 then readLow n.1 (n.2.drop 2)
    else some (Char.ofNat n.1, n.2)

/-- Reads one character between the quotes. -/
def unescape : List Char → Option (Char × List Char)
  | [] => none
  | c :: rest =>
    if c = '\x5c' then
      match rest with
      | [] => none
      | d :: rest =>
        if d = 'u' then readUnicode rest
        else if d = 'b' then some ('\x08', rest)
        else if d = 'f' then some ('\x0c', rest)
        else if d = 'n' then some ('\n', rest)
        else if d = 'r' then some ('\r', rest)
        else if d = 't' then some ('\t', rest)
        else some (d, rest)
    else some (c, rest)

/-- A character is no surrogate. -/
theorem toNat_char (c : Char) : c.toNat < 0x110000 ∧ ¬ (0xd800 ≤ c.toNat ∧ c.toNat < 0xdc00) := by
  have hvalid := c.valid
  simp only [UInt32.isValidChar, Nat.isValidChar] at hvalid
  show c.val.toNat < _ ∧ ¬ (_ ≤ c.val.toNat ∧ c.val.toNat < _)
  omega

theorem readUnicode_of_lt {c : Char} (h : c.toNat < 0x10000) (rest : List Char) :
    readUnicode (hex4 c.toNat ++ rest) = some (c, rest) := by
  obtain ⟨-, hnot⟩ := toNat_char c
  rw [readUnicode, readHex4_hex4 h rest, Option.bind_some, if_neg hnot, Char.ofNat_toNat]

theorem readUnicode_of_ge {c : Char} (h : 0x10000 ≤ c.toNat) (rest : List Char) :
    readUnicode (hex4 (0xd800 + (c.toNat - 0x10000) / 1024) ++
      '\x5c' :: 'u' :: (hex4 (0xdc00 + (c.toNat - 0x10000) % 1024) ++ rest)) = some (c, rest) := by
  obtain ⟨hlt, -⟩ := toNat_char c
  generalize hhigh : 0xd800 + (c.toNat - 0x10000) / 1024 = high
  generalize hlow : 0xdc00 + (c.toNat - 0x10000) % 1024 = low
  have hsurrogate : 0xd800 ≤ high ∧ high < 0xdc00 := by omega
  have hsame : fromSurrogates high low = c := by
    have hnat : 0x10000 + (high - 0xd800) * 1024 + (low - 0xdc00) = c.toNat := by omega
    rw [fromSurrogates, hnat, Char.ofNat_toNat]
  have hhex : high < 65536 ∧ low < 65536 := by omega
  rw [readUnicode, readHex4_hex4 hhex.1, Option.bind_some, if_pos hsurrogate, readLow,
    List.drop_succ_cons, List.drop_succ_cons, List.drop_zero, readHex4_hex4 hhex.2,
    Option.map_some, hsame]

/-- Escapes are read back. -/
theorem unescape_escape (c : Char) (rest : List Char) :
    unescape (escape c ++ rest) = some (c, rest) := by
  rw [escape]
  split
  · next h => rw [h]; rfl
  split
  · next h => rw [h]; rfl
  split
  · next h => rw [h]; rfl
  split
  · next h => rw [h]; rfl
  split
  · next h => rw [h]; rfl
  split
  · next h => rw [h]; rfl
  split
  · next h => rw [h]; rfl
  split
  -- a printable character stands for itself
  · next hslash _ _ _ _ _ _ =>
    show (if c = '\x5c' then _ else some (c, rest)) = some (c, rest)
    exact if_neg hslash
  split
  -- one escape, or a pair of surrogates
  · next h => exact readUnicode_of_lt h rest
  · next h =>
    have hge := Nat.le_of_not_lt h
    have hread := readUnicode_of_ge hge rest
    show readUnicode _ = _
    rw [← hread]
    simp

/-- No character's text starts with the closing quote. -/
theorem escape_ne_quote (c : Char) (s t : List Char) : escape c ++ s ≠ '\x22' :: t := by
  rw [escape]
  split
  · simp
  split
  · simp
  split
  · simp
  split
  · simp
  split
  · simp
  split
  · simp
  split
  · simp
  split
  · next hquote _ _ _ _ _ _ _ =>
    intro heq
    exact hquote (List.cons.inj heq).1
  split
  · simp
  · simp

/-! ## Values -/

/-- A string in quotes. -/
def stringText (s : String) : List Char := '\x22' :: (s.toList.flatMap escape ++ ['\x22'])

namespace Json

variable {φ : Type} [Runtime φ]

mutual

def text : Json φ → List Char
  | .null => ['n', 'u', 'l', 'l']
  | .bool true => ['t', 'r', 'u', 'e']
  | .bool false => ['f', 'a', 'l', 's', 'e']
  | .int n => n.repr.toList
  | .float x => Runtime.floatRepr x
  | .string s => stringText s
  | .array items => '[' :: (List.intercalate [',', ' '] (texts items) ++ [']'])
  | .object members => '\x7b' :: (List.intercalate [',', ' '] (memberTexts members) ++ ['\x7d'])

def texts : List (Json φ) → List (List Char)
  | [] => []
  | item :: items => text item :: texts items

def memberTexts : List (String × Json φ) → List (List Char)
  | [] => []
  | (key, value) :: members => (stringText key ++ [':', ' '] ++ text value) :: memberTexts members

end

/-- `json.dumps`. -/
def dumps (j : Json φ) : String := String.ofList j.text

def memberText (m : String × Json φ) : List Char := stringText m.1 ++ [':', ' '] ++ text m.2

theorem texts_eq (items : List (Json φ)) : texts items = items.map text := by
  induction items with
  | nil => rw [texts, List.map_nil]
  | cons item items ih => rw [texts, ih, List.map_cons]

theorem memberTexts_eq (members : List (String × Json φ)) :
    memberTexts members = members.map memberText := by
  induction members with
  | nil => rw [memberTexts, List.map_nil]
  | cons m members ih => rw [memberTexts, ih, List.map_cons, memberText]

/-! ## The texts tell where they end -/

/-- What may follow a value: nothing that could belong to a number. -/
def Follows (s : List Char) : Prop := ∀ c ∈ s.head?, isNumeric c = false

theorem follows_nil : Follows [] := by
  intro c hc
  cases hc

theorem follows_cons {c : Char} (h : isNumeric c = false) (s : List Char) : Follows (c :: s) := by
  intro d hd
  obtain rfl := Option.mem_some.mp hd
  exact h

/-- A quoted string ends at its closing quote. -/
theorem stringText_inj {a b : String} {s t : List Char}
    (h : stringText a ++ s = stringText b ++ t) : a = b ∧ s = t := by
  rw [stringText, stringText] at h
  simp only [List.cons_append, List.append_assoc, List.nil_append] at h
  obtain ⟨htext, rfl⟩ := flatMap_inj escape (fun _ => True) (fun _ => trivial)
    (fun _ _ => trivial) escape_ne_quote
    (fun c _ => .of_reader unescape_escape _ c) (List.cons.inj h).2
  exact ⟨String.toList_injective htext, rfl⟩

theorem isDigit_of_mem_repr {n : Nat} {c : Char} (h : c ∈ n.repr.toList) : c.isDigit = true := by
  rw [Nat.toList_repr] at h
  exact Nat.isDigit_of_mem_toDigits (by decide) (by decide) h

theorem toList_repr_neg (n : Nat) : (Int.negSucc n).repr.toList = '-' :: n.succ.repr.toList := by
  rw [Int.repr, String.toList_append]
  rfl

theorem repr_numeric (n : Int) : ∀ c ∈ n.repr.toList, isNumeric c = true := by
  intro c hc
  cases n with
  | ofNat m => simp [isNumeric, isDigit_of_mem_repr (n := m) hc]
  | negSucc m =>
    rw [toList_repr_neg] at hc
    rcases List.mem_cons.mp hc with rfl | hc
    · rfl
    · simp [isNumeric, isDigit_of_mem_repr hc]

theorem repr_ne_nil (n : Int) : n.repr.toList ≠ [] := by
  cases n with
  | ofNat m =>
    show m.repr.toList ≠ []
    rw [Nat.toList_repr]
    exact Nat.toDigits_ne_nil
  | negSucc m =>
    rw [toList_repr_neg]
    exact List.cons_ne_nil _ _

/-- The decimal digits of an integer. -/
theorem repr_inj {n m : Int} (h : n.repr.toList = m.repr.toList) : n = m := by
  have hnat : ∀ {n m : Nat}, n.repr.toList = m.repr.toList → n = m := by
    intro n m h
    rw [Nat.toList_repr, Nat.toList_repr] at h
    rw [← Nat.ofDigitChars_toDigits (b := 10) (n := n) (by decide) (by decide), h,
      Nat.ofDigitChars_toDigits (by decide) (by decide)]
  -- a digit is no minus sign
  have hsign : ∀ {n m : Nat}, n.repr.toList ≠ '-' :: m.repr.toList := by
    intro n m h
    have hdigit := isDigit_of_mem_repr (n := n) (c := '-') (by rw [h]; exact List.mem_cons_self)
    exact absurd hdigit (by decide)
  cases n with
  | ofNat n =>
    cases m with
    | ofNat m => exact congrArg _ (hnat h)
    | negSucc m =>
      rw [toList_repr_neg] at h
      exact absurd h hsign
  | negSucc n =>
    cases m with
    | ofNat m =>
      rw [toList_repr_neg] at h
      exact absurd h.symm hsign
    | negSucc m =>
      rw [toList_repr_neg, toList_repr_neg] at h
      exact congrArg _ (Nat.succ.inj (hnat (List.cons.inj h).2))

/-- The character that the text of a value starts with, `0` for the numbers. -/
def lead : Json φ → Char
  | .null => 'n'
  | .bool true => 't'
  | .bool false => 'f'
  | .int _ => '0'
  | .float _ => '0'
  | .string _ => '\x22'
  | .array _ => '['
  | .object _ => '\x7b'

def leadOf (c : Char) : Char := if isNumeric c then '0' else c

/-- A text's first character tells the kind of the value. -/
theorem exists_text_eq (j : Json φ) : ∃ c rest, j.text = c :: rest ∧ leadOf c = j.lead := by
  have hnumber : ∀ l : List Char, l ≠ [] → (∀ c ∈ l, isNumeric c = true) →
      ∃ c rest, l = c :: rest ∧ leadOf c = '0' := by
    intro l hne hl
    cases l with
    | nil => exact absurd rfl hne
    | cons c rest => exact ⟨c, rest, rfl, if_pos (hl c List.mem_cons_self)⟩
  cases j with
  | null => exact ⟨_, _, by rw [text], rfl⟩
  | bool b =>
    cases b with
    | true => exact ⟨_, _, by rw [text], rfl⟩
    | false => exact ⟨_, _, by rw [text], rfl⟩
  | int n =>
    rw [text]
    exact hnumber _ (repr_ne_nil n) (repr_numeric n)
  | float x =>
    rw [text]
    exact hnumber _ (Runtime.floatRepr_ne_nil x) (Runtime.floatRepr_numeric x)
  | string s => exact ⟨_, _, by rw [text, stringText], rfl⟩
  | array items => exact ⟨_, _, by rw [text], rfl⟩
  | object members => exact ⟨_, _, by rw [text], rfl⟩

theorem lead_eq {a b : Json φ} {s t : List Char} (h : a.text ++ s = b.text ++ t) :
    a.lead = b.lead := by
  obtain ⟨c, rest, ha, hleadA⟩ := exists_text_eq a
  obtain ⟨d, rest', hb, hleadB⟩ := exists_text_eq b
  rw [ha, hb] at h
  rw [← hleadA, ← hleadB, (List.cons.inj h).1]

/-- No value's text starts with the bracket that closes a list. -/
theorem text_ne_bracket (j : Json φ) (s t : List Char) : j.text ++ s ≠ ']' :: t := by
  obtain ⟨c, rest, hj, hlead⟩ := exists_text_eq j
  rw [hj]
  intro heq
  rw [(List.cons.inj heq).1] at hlead
  have hbracket : leadOf ']' = ']' := by decide
  rw [hbracket] at hlead
  cases j with
  | bool b => cases b <;> simp [lead] at hlead
  | _ => simp [lead] at hlead

/-- The texts of two numbers. -/
theorem number_inj {u v s t : List Char} (hu : ∀ c ∈ u, isNumeric c = true)
    (hv : ∀ c ∈ v, isNumeric c = true) (hs : Follows s) (ht : Follows t)
    (heq : u ++ s = v ++ t) : u = v ∧ s = t := eq_of_span hu hv hs ht heq

theorem unambiguous_null : Unambiguous text Follows (null : Json φ) := by
  intro b s t _ _ heq
  have hlead := lead_eq heq
  cases b with
  | null =>
    rw [text] at heq
    exact ⟨rfl, by simpa using heq⟩
  | bool q => cases q <;> simp [lead] at hlead
  | _ => simp [lead] at hlead

theorem unambiguous_bool (p : Bool) : Unambiguous text Follows (bool p : Json φ) := by
  intro b s t _ _ heq
  have hlead := lead_eq heq
  cases b with
  | bool q =>
    -- `true` and `false` start with different letters
    obtain rfl : p = q := by
      cases p <;> cases q <;> simp [lead] at hlead <;> rfl
    exact ⟨rfl, List.append_cancel_left heq⟩
  | _ => cases p <;> simp [lead] at hlead

theorem unambiguous_int (n : Int) : Unambiguous text Follows (int n : Json φ) := by
  intro b s t hs ht heq
  have hlead := lead_eq heq
  cases b with
  | int m =>
    rw [text, text] at heq
    obtain ⟨hrepr, rfl⟩ := number_inj (repr_numeric n) (repr_numeric m) hs ht heq
    exact ⟨congrArg _ (repr_inj hrepr), rfl⟩
  | float y =>
    -- a float's text is no integer's
    rw [text, text] at heq
    obtain ⟨hrepr, -⟩ := number_inj (repr_numeric n) (Runtime.floatRepr_numeric y) hs ht heq
    exact absurd hrepr.symm (Runtime.floatRepr_ne_int y n)
  | bool q => cases q <;> simp [lead] at hlead
  | _ => simp [lead] at hlead

theorem unambiguous_float (x : φ) : Unambiguous text Follows (float x) := by
  intro b s t hs ht heq
  have hlead := lead_eq heq
  cases b with
  | int m =>
    rw [text, text] at heq
    obtain ⟨hrepr, -⟩ := number_inj (Runtime.floatRepr_numeric x) (repr_numeric m) hs ht heq
    exact absurd hrepr (Runtime.floatRepr_ne_int x m)
  | float y =>
    rw [text, text] at heq
    obtain ⟨hrepr, rfl⟩ :=
      number_inj (Runtime.floatRepr_numeric x) (Runtime.floatRepr_numeric y) hs ht heq
    exact ⟨congrArg _ (Runtime.floatRepr_injective hrepr), rfl⟩
  | bool q => cases q <;> simp [lead] at hlead
  | _ => simp [lead] at hlead

theorem unambiguous_string (a : String) : Unambiguous text Follows (string a : Json φ) := by
  intro b s t _ _ heq
  have hlead := lead_eq heq
  cases b with
  | string b =>
    rw [text, text] at heq
    obtain ⟨rfl, rfl⟩ := stringText_inj heq
    exact ⟨rfl, rfl⟩
  | bool q => cases q <;> simp [lead] at hlead
  | _ => simp [lead] at hlead

theorem unambiguous_array {items : List (Json φ)}
    (h : ∀ item ∈ items, Unambiguous text Follows item) :
    Unambiguous text Follows (array items) := by
  intro b s t _ _ heq
  have hlead := lead_eq heq
  cases b with
  | array items' =>
    rw [text, text, texts_eq, texts_eq, List.cons_append, List.cons_append, List.append_assoc,
      List.append_assoc] at heq
    obtain ⟨rfl, rfl⟩ := intercalate_inj (by decide) (follows_cons (by decide))
      (follows_cons (by decide)) text_ne_bracket h (List.cons.inj heq).2
    exact ⟨rfl, rfl⟩
  | bool q => cases q <;> simp [lead] at hlead
  | _ => simp [lead] at hlead

theorem unambiguous_member {m : String × Json φ} (h : Unambiguous text Follows m.2) :
    Unambiguous memberText Follows m := by
  intro m' s t hs ht heq
  rw [memberText, memberText, List.append_assoc, List.append_assoc, List.append_assoc,
    List.append_assoc] at heq
  -- the key ends at its quote, and the value where the member does
  obtain ⟨hkey, hrest⟩ := stringText_inj heq
  obtain ⟨hvalue, rfl⟩ := h m'.2 s t hs ht (List.append_cancel_left hrest)
  exact ⟨Prod.ext hkey hvalue, rfl⟩

theorem unambiguous_object {members : List (String × Json φ)}
    (h : ∀ m ∈ members, Unambiguous text Follows m.2) :
    Unambiguous text Follows (object members) := by
  intro b s t _ _ heq
  have hlead := lead_eq heq
  cases b with
  | object members' =>
    rw [text, text, memberTexts_eq, memberTexts_eq, List.cons_append, List.cons_append,
      List.append_assoc, List.append_assoc] at heq
    have hquote : ∀ (m : String × Json φ) s t, memberText m ++ s ≠ '\x7d' :: t := by
      intro m s t hfirst
      rw [memberText, stringText] at hfirst
      exact absurd (List.cons.inj hfirst).1 (by decide)
    obtain ⟨rfl, rfl⟩ := intercalate_inj (by decide) (follows_cons (by decide))
      (follows_cons (by decide)) hquote (fun m hm => unambiguous_member (h m hm))
      (List.cons.inj heq).2
    exact ⟨rfl, rfl⟩
  | bool q => cases q <;> simp [lead] at hlead
  | _ => simp [lead] at hlead

/-- A text is the text of one value only. -/
theorem unambiguous (j : Json φ) : Unambiguous text Follows j := by
  induction j using induct with
  | null => exact unambiguous_null
  | bool p => exact unambiguous_bool p
  | int n => exact unambiguous_int n
  | float x => exact unambiguous_float x
  | string a => exact unambiguous_string a
  | array items ih => exact unambiguous_array ih
  | object members ih => exact unambiguous_object ih

/-- `json.dumps` gives different values different texts. -/
theorem dumps_injective : Function.Injective (dumps (φ := φ)) := fun a _ h =>
  (unambiguous a).eq follows_nil (String.ofList_injective h)

end Json

end Settings
end Quietwire
