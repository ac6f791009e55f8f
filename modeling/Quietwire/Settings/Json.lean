/-
  Quietwire.Settings.Json

  JSON values as Python holds them once parsed: `json.loads` and `yaml.safe_load` give
  `None`, booleans, integers, floats, strings, lists and dictionaries, and remember in
  which order a dictionary's members came.

  Two notions of equality: `Json.eq`, which is Python's `==` with `True == 1`, and
  equality of the JSON values (`Json.value`), where a number is its value, members have
  no order, and a boolean is not a number.
-/
import Mathlib.Data.List.Sort
import Mathlib.Data.String.Basic
import Mathlib.Data.Rat.Defs

namespace Quietwire
namespace Settings

/-- The characters of a number's text. -/
def isNumeric (c : Char) : Bool := c.isDigit || c == '-' || c == '+' || c == '.' || c == 'e'

/-- What the code takes from the Python runtime and is not spelled out here: the finite floats,
    with their exact values and `float.__repr__`, and which characters beyond ASCII
    `str.__repr__` prints as they are. -/
class Runtime (φ : Type) where
  floatValue : φ → ℚ
  floatRepr : φ → List Char
  /-- Distinct floats have distinct texts, since the text gives the float back. -/
  floatRepr_injective : Function.Injective floatRepr
  floatRepr_ne_nil : ∀ x, floatRepr x ≠ []
  floatRepr_numeric : ∀ x, ∀ c ∈ floatRepr x, isNumeric c = true
  /-- A float's text has a point or an exponent. -/
  floatRepr_ne_int : ∀ x (n : Int), floatRepr x ≠ n.repr.toList
  isPrintable : Char → Bool

/-- A parsed JSON value. -/
inductive Json (φ : Type) where
  | null
  | bool (b : Bool)
  | int (n : Int)
  | float (x : φ)
  | string (s : String)
  | array (items : List (Json φ))
  | object (members : List (String × Json φ))

/-- A JSON value: numbers by their value, the members of an object by their keys. -/
inductive Value where
  | null
  | bool (b : Bool)
  | number (q : ℚ)
  | string (s : String)
  | array (items : List Value)
  | object (members : List (String × Value))

namespace Json

variable {φ : Type}

/-! ## Induction -/

theorem sizeOf_item_lt {items : List (Json φ)} {item : Json φ} (h : item ∈ items) :
    sizeOf item < sizeOf (array items) := by
  have hlt := List.sizeOf_lt_of_mem h
  rw [array.sizeOf_spec]
  omega

theorem sizeOf_member_lt {members : List (String × Json φ)} {m : String × Json φ}
    (h : m ∈ members) : sizeOf m.2 < sizeOf (object members) := by
  have hlt := List.sizeOf_lt_of_mem h
  obtain ⟨key, value⟩ := m
  rw [Prod.mk.sizeOf_spec] at hlt
  rw [object.sizeOf_spec]
  show sizeOf value < _
  omega

/-- Induction over the items of arrays and the members of objects. -/
theorem induct {motive : Json φ → Prop} (null : motive .null) (bool : ∀ b, motive (.bool b))
    (int : ∀ n, motive (.int n)) (float : ∀ x, motive (.float x))
    (string : ∀ s, motive (.string s))
    (array : ∀ items, (∀ item ∈ items, motive item) → motive (.array items))
    (object : ∀ members, (∀ m ∈ members, motive m.2) → motive (.object members)) :
    ∀ j, motive j
  | .null => null
  | .bool b => bool b
  | .int n => int n
  | .float x => float x
  | .string s => string s
  | .array items => array items fun item _ =>
    induct null bool int float string array object item
  | .object members => object members fun m _ =>
    induct null bool int float string array object m.2
termination_by j => sizeOf j
decreasing_by
  · exact sizeOf_item_lt ‹_›
  · exact sizeOf_member_lt ‹_›

/-! ## Access -/

/-- `item[key]`, for a dictionary that has the key. -/
def get? (key : String) : Json φ → Option (Json φ)
  | .object members => members.lookup key
  | _ => none

def isBool : Json φ → Bool
  | .bool _ => true
  | _ => false

/-- Neither a list nor a dictionary. -/
def isScalar : Json φ → Bool
  | .array _ => false
  | .object _ => false
  | _ => true

/-! ## Equality -/

section Equality

variable [Runtime φ]

/-- The number that a value is to Python: `True` is 1 and `False` is 0. -/
def number? : Json φ → Option ℚ
  | .bool b => some (if b then 1 else 0)
  | .int n => some n
  | .float x => some (Runtime.floatValue x)
  | _ => none

/-- Python's `==`, where one side is a scalar. -/
def eq (a b : Json φ) : Bool :=
  match a, b with
  | .null, .null => true
  | .string s, .string t => s == t
  | a, b =>
    match a.number?, b.number? with
    | some x, some y => x == y
    | _, _ => false

/-- What Python compares and hashes of a scalar; lists and dictionaries have no hash. -/
def hashed : Json φ → Option Value
  | .null => some .null
  | .string s => some (.string s)
  | a => a.number?.map .number

theorem eq_iff_hashed {a b : Json φ} :
    a.eq b = true ↔ ∃ v, a.hashed = some v ∧ b.hashed = some v := by
  cases a <;> cases b <;> simp [eq, hashed, number?] <;> exact eq_comm

theorem eq_self {a : Json φ} (ha : a.isScalar = true) : a.eq a = true := by
  rw [eq_iff_hashed]
  cases a with
  | array items => cases ha
  | object members => cases ha
  | _ => exact ⟨_, rfl, rfl⟩

theorem eq_symm {a b : Json φ} (h : a.eq b = true) : b.eq a = true := by
  obtain ⟨v, ha, hb⟩ := eq_iff_hashed.mp h
  exact eq_iff_hashed.mpr ⟨v, hb, ha⟩

theorem eq_trans {a b c : Json φ} (hab : a.eq b = true) (hbc : b.eq c = true) :
    a.eq c = true := by
  obtain ⟨v, ha, hb⟩ := eq_iff_hashed.mp hab
  obtain ⟨w, hb', hc⟩ := eq_iff_hashed.mp hbc
  cases hb.symm.trans hb'
  exact eq_iff_hashed.mpr ⟨v, ha, hc⟩

mutual

/-- The JSON value. -/
def value : Json φ → Value
  | .null => .null
  | .bool b => .bool b
  | .int n => .number n
  | .float x => .number (Runtime.floatValue x)
  | .string s => .string s
  | .array items => .array (values items)
  | .object members =>
    .object ((memberValues members).insertionSort fun m n => m.1 ≤ n.1)

def values : List (Json φ) → List Value
  | [] => []
  | item :: items => value item :: values items

def memberValues : List (String × Json φ) → List (String × Value)
  | [] => []
  | (key, item) :: members => (key, value item) :: memberValues members

end

/-- Python's `==` on a scalar is equality of JSON values, but for booleans and numbers. -/
theorem eq_and_isBool_iff {a : Json φ} (ha : a.isScalar = true) (b : Json φ) :
    (a.eq b = true ∧ a.isBool = b.isBool) ↔ a.value = b.value := by
  cases a with
  | null => cases b <;> simp [eq, number?, isBool, value]
  | bool p =>
    cases b with
    | bool q => cases p <;> cases q <;> simp [eq, number?, isBool, value]
    | _ => simp [eq, number?, isBool, value]
  | int n => cases b <;> simp [eq, number?, isBool, value]
  | float x => cases b <;> simp [eq, number?, isBool, value]
  | string s => cases b <;> simp [eq, number?, isBool, value]
  | array items => cases ha
  | object members => cases ha

end Equality

end Json

end Settings
end Quietwire
