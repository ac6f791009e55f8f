/-
  Quietwire.Settings.Drift

  `find_drift` of `tools/ci/settings_drift.py`: the lines that tell where the live
  settings differ from the declared ones.

  The functions call one another in a circle; here each takes what it calls back into
  as an argument, and `findDrift` ties the knot.
-/
import Mathlib.Data.List.Perm.Basic
import Quietwire.Settings.Dumps
import Quietwire.Settings.Index

namespace Quietwire
namespace Settings

variable {φ : Type} [Runtime φ]

/-! ## Python's texts of values -/

def hex2 (n : Nat) : List Char := [(n / 16 % 16).digitChar, (n % 16).digitChar]

/-- One character of `str.__repr__`. -/
def reprChar (isPrintable : Char → Bool) (quote c : Char) : List Char :=
  if c = quote ∨ c = '\x5c' then ['\x5c', c]
  else if c = '\t' then ['\x5c', 't']
  else if c = '\n' then ['\x5c', 'n']
  else if c = '\r' then ['\x5c', 'r']
  else if ' ' ≤ c ∧ c ≤ '~' ∨ '\x7f' < c ∧ isPrintable c = true then [c]
  else if c.toNat ≤ 0xff then '\x5c' :: 'x' :: hex2 c.toNat
  else if c.toNat ≤ 0xffff then '\x5c' :: 'u' :: hex4 c.toNat
  else '\x5c' :: 'U' :: hex4 (c.toNat / 0x10000) ++ hex4 (c.toNat % 0x10000)

/-- `str.__repr__` quotes with apostrophes, unless the string has one and no double quote. -/
def reprString (isPrintable : Char → Bool) (s : String) : List Char :=
  let quote := if s.toList.contains '\x27' && !s.toList.contains '\x22' then '\x22' else '\x27'
  quote :: (s.toList.flatMap (reprChar isPrintable quote) ++ [quote])

namespace Json

mutual

def reprText : Json φ → List Char
  | .null => ['N', 'o', 'n', 'e']
  | .bool true => ['T', 'r', 'u', 'e']
  | .bool false => ['F', 'a', 'l', 's', 'e']
  | .int n => n.repr.toList
  | .float x => Runtime.floatRepr x
  | .string s => reprString (Runtime.isPrintable φ) s
  | .array items => '[' :: (List.intercalate [',', ' '] (reprTexts items) ++ [']'])
  | .object members =>
    '\x7b' :: (List.intercalate [',', ' '] (reprMemberTexts members) ++ ['\x7d'])

def reprTexts : List (Json φ) → List (List Char)
  | [] => []
  | item :: items => reprText item :: reprTexts items

def reprMemberTexts : List (String × Json φ) → List (List Char)
  | [] => []
  | (key, value) :: members =>
    (reprString (Runtime.isPrintable φ) key ++ [':', ' '] ++ reprText value)
      :: reprMemberTexts members

end

/-- `repr`. -/
def repr (j : Json φ) : String := String.ofList j.reprText

/-- `str`. -/
def str : Json φ → String
  | .string s => s
  | j => j.repr

end Json

/-- `sorted`, of strings. -/
def sorted (l : List String) : List String := l.insertionSort (· ≤ ·)

theorem sorted_eq_iff {l l' : List String} : sorted l = sorted l' ↔ l.Perm l' := by
  constructor
  · intro h
    have hperm := List.perm_insertionSort (· ≤ ·) l'
    rw [← sorted, ← h] at hperm
    exact (List.perm_insertionSort _ l).symm.trans hperm
  · intro h
    have hperm : (sorted l).Perm (sorted l') :=
      (List.perm_insertionSort _ l).trans (h.trans (List.perm_insertionSort _ l').symm)
    exact hperm.eq_of_pairwise' (List.pairwise_insertionSort _ l) (List.pairwise_insertionSort _ l')

theorem sorted_eq_nil_iff {l : List String} : sorted l = [] ↔ l = [] := by
  have hnil : sorted [] = [] := rfl
  rw [← hnil, sorted_eq_iff, hnil, List.perm_nil]

/-! ## Drift -/

/-- The lines of a drift, or the error that was raised. -/
abbrev Drift := Except TypeError (List String)

/-- `for a in l: drift.extend(f(a))` -/
def extendAll {β : Type} (f : β → Drift) : List β → Drift
  | [] => .ok []
  | b :: rest =>
    match f b with
    | .error error => .error error
    | .ok lines =>
      match extendAll f rest with
      | .error error => .error error
      | .ok more => .ok (lines ++ more)

theorem extendAll_eq_nil_iff {β : Type} {f : β → Drift} {l : List β} :
    extendAll f l = .ok [] ↔ ∀ b ∈ l, f b = .ok [] := by
  induction l with
  | nil => exact iff_of_true rfl (List.forall_mem_nil _)
  | cons b rest ih =>
    rw [List.forall_mem_cons, ← ih, extendAll]
    cases f b with
    | error error => simp
    | ok lines =>
      cases extendAll f rest with
      | error error => simp
      | ok more => simp [List.append_eq_nil_iff]

theorem extendAll_attach_eq_nil_iff {β : Type} {l : List β} {f : { b // b ∈ l } → Drift} :
    extendAll f l.attach = .ok [] ↔ ∀ b, (h : b ∈ l) → f ⟨b, h⟩ = .ok [] := by
  rw [extendAll_eq_nil_iff]
  exact ⟨fun h b hb => h ⟨b, hb⟩ (List.mem_attach _ _), fun h b _ => h b.val b.property⟩

def expected (path : String) (desired live : String) : String :=
  path ++ ": expected " ++ desired ++ ", found " ++ live

/-- `_plain_list_drift` -/
def plainListDrift (desired live : List (Json φ)) (path : String) : List String :=
  if sorted (desired.map Json.dumps) ≠ sorted (live.map Json.dumps) then
    [expected path (Json.array desired).repr (Json.array live).repr]
  else []

/-- The body of the loop over what is declared, in `_dict_drift` and in `_keyed_list_drift`. -/
def foundDrift (found : Option (Json φ)) (path : String) (findDrift : Json φ → String → Drift) :
    Drift :=
  match found with
  | none => .ok [path ++ ": missing"]
  | some item => findDrift item path

/-- The path of a keyed list's item. -/
def itemPath (path : String) (name : Json φ) : String := path ++ "[" ++ name.str ++ "]"

/-- `_keyed_list_drift` -/
def keyedListDrift (desired live : Dict φ) (path : String)
    (findDrift : (entry : Json φ × Json φ) → entry ∈ desired → Json φ → String → Drift) : Drift :=
  -- the difference of the two sets of keys; their order does not matter, as the lines are sorted
  let undeclared := (live.filter fun entry => (desired.get? entry.1).isNone).map fun entry =>
    itemPath path entry.1 ++ ": present live, not declared"
  let drift := extendAll (fun entry : { entry // entry ∈ desired } =>
    foundDrift (live.get? entry.val.1) (itemPath path entry.val.1)
      (findDrift entry.val entry.property)) desired.attach
  drift.map fun lines => sorted (undeclared ++ lines)

/-- The key by which `_list_drift` compares two lists. -/
def driftKey (desired live : List (Json φ)) : Option String := listKey desired <|> listKey live

/-- `_list_drift` -/
def listDrift (desired : List (Json φ)) (live : Json φ) (path : String)
    (findDrift : (item : Json φ) → item ∈ desired → Json φ → String → Drift) : Drift :=
  match live with
  | .array items =>
    match driftKey desired items with
    | none => .ok (plainListDrift desired items path)
    | some key =>
      -- a key that cannot be hashed ends the comparison
      match h : index desired key with
      | .error error => .error error
      | .ok dict =>
        match index items key with
        | .error error => .error error
        | .ok live => keyedListDrift dict live path fun entry hentry =>
          findDrift entry.2 ((Indexed.of_index h).mem entry hentry)
  | live => .ok [path ++ ": expected a list, found " ++ live.repr]

/-- The path of a mapping's member. -/
def childPath (path key : String) : String := if path = "" then key else path ++ "." ++ key

/-- `_dict_drift` -/
def dictDrift (desired : List (String × Json φ)) (live : Json φ) (path : String)
    (findDrift : (m : String × Json φ) → m ∈ desired → Json φ → String → Drift) : Drift :=
  match live with
  | .object members =>
    extendAll (fun m : { m // m ∈ desired } =>
      foundDrift (members.lookup m.val.1) (childPath path m.val.1) (findDrift m.val m.property))
      desired.attach
  | live => .ok [path ++ ": expected a mapping, found " ++ live.repr]

def findDrift (desired live : Json φ) (path : String) : Drift :=
  match desired with
  | .object members => dictDrift members live path fun m _ => findDrift m.2
  | .array items => listDrift items live path fun item _ => findDrift item
  | desired => if desired.eq live then .ok [] else .ok [expected path desired.repr live.repr]
termination_by sizeOf desired
decreasing_by
  · exact Json.sizeOf_member_lt ‹_›
  · exact Json.sizeOf_item_lt ‹_›

/-! ## Where there is no drift -/

omit [Runtime φ] in
theorem foundDrift_eq_nil_iff {found : Option (Json φ)} {path : String}
    {f : Json φ → String → Drift} :
    foundDrift found path f = .ok [] ↔ ∃ item, found = some item ∧ f item path = .ok [] := by
  cases found with
  | none => simp [foundDrift]
  | some item => simp [foundDrift]

theorem plainListDrift_eq_nil_iff {desired live : List (Json φ)} {path : String} :
    plainListDrift desired live path = [] ↔ desired.Perm live := by
  have hdumps : (desired.map Json.dumps).Perm (live.map Json.dumps) ↔ desired.Perm live :=
    List.map_perm_map_iff Json.dumps_injective
  rw [← hdumps, ← sorted_eq_iff, plainListDrift]
  split
  · next hne => exact iff_of_false (List.cons_ne_nil _ _) hne
  · next heq => exact iff_of_true rfl (not_not.mp heq)

theorem keyedListDrift_eq_nil_iff {desired live : Dict φ} {path : String}
    {f : (entry : Json φ × Json φ) → entry ∈ desired → Json φ → String → Drift} :
    keyedListDrift desired live path f = .ok [] ↔
      (∀ entry ∈ live, (desired.get? entry.1).isSome) ∧
      ∀ entry, (h : entry ∈ desired) → ∃ item, live.get? entry.1 = some item ∧
        f entry h item (itemPath path entry.1) = .ok [] := by
  have hdeclared := extendAll_attach_eq_nil_iff (f := fun entry : { entry // entry ∈ desired } =>
    foundDrift (live.get? entry.val.1) (itemPath path entry.val.1) (f entry.val entry.property))
  simp only [foundDrift_eq_nil_iff] at hdeclared
  rw [← hdeclared, keyedListDrift]
  cases extendAll _ desired.attach with
  | error error => simp [Except.map]
  | ok lines =>
    simp [Except.map, sorted_eq_nil_iff, List.filter_eq_nil_iff, Option.isSome_iff_ne_none]

theorem findDrift_scalar_iff {desired : Json φ} (h : desired.isScalar = true) {live : Json φ}
    {path : String} : findDrift desired live path = .ok [] ↔ desired.eq live = true := by
  have hfind : findDrift desired live path =
      if desired.eq live then .ok [] else .ok [expected path desired.repr live.repr] := by
    cases desired with
    | array items => cases h
    | object members => cases h
    | _ => rw [findDrift] <;> simp
  rw [hfind]
  cases desired.eq live <;> simp

theorem findDrift_object_iff {members : List (String × Json φ)} {live : Json φ} (path : String) :
    findDrift (.object members) live path = .ok [] ↔
      ∃ lives, live = .object lives ∧ ∀ m ∈ members, ∃ item, lives.lookup m.1 = some item ∧
        findDrift m.2 item (childPath path m.1) = .ok [] := by
  rw [findDrift]
  cases live with
  | object lives =>
    rw [dictDrift, extendAll_attach_eq_nil_iff]
    simp only [foundDrift_eq_nil_iff]
    constructor
    · intro h
      exact ⟨lives, rfl, h⟩
    · rintro ⟨_, heq, h⟩
      cases heq
      exact h
  | _ => simp [dictDrift]

theorem findDrift_array_iff {items : List (Json φ)} {live : Json φ} (path : String) :
    findDrift (.array items) live path = .ok [] ↔
      ∃ lives, live = .array lives ∧ findDrift (.array items) (.array lives) path = .ok [] := by
  constructor
  · intro h
    cases live with
    | array lives => exact ⟨lives, rfl, h⟩
    | _ => simp [findDrift, listDrift] at h
  · rintro ⟨lives, rfl, h⟩
    exact h

/-- Lists without a key are compared as they are written. -/
theorem findDrift_plain_iff {items lives : List (Json φ)} (hkey : driftKey items lives = none)
    {path : String} : findDrift (.array items) (.array lives) path = .ok [] ↔ items.Perm lives := by
  have hfind : findDrift (.array items) (.array lives) path =
      .ok (plainListDrift items lives path) := by
    rw [findDrift, listDrift, hkey]
  rw [hfind, Except.ok.injEq, plainListDrift_eq_nil_iff]

/-- Keyed lists are compared by what `_index` keeps of them. -/
theorem findDrift_keyed_iff {items lives : List (Json φ)} {key : String}
    (hkey : driftKey items lives = some key) {path : String} :
    findDrift (.array items) (.array lives) path = .ok [] ↔
      ∃ dict live, index items key = .ok dict ∧ index lives key = .ok live ∧
        (∀ entry ∈ live, (dict.get? entry.1).isSome) ∧
        ∀ entry ∈ dict, ∃ item, live.get? entry.1 = some item ∧
          findDrift entry.2 item (itemPath path entry.1) = .ok [] := by
  rw [findDrift, listDrift, hkey]
  simp only
  -- the declared list is indexed first
  split
  · next error herror => simp [herror]
  · next dict hdict =>
    cases hlive : index lives key with
    | error error => simp
    | ok live =>
      simp only [keyedListDrift_eq_nil_iff]
      constructor
      · rintro ⟨hlives, hdeclared⟩
        exact ⟨dict, live, hdict, rfl, hlives, hdeclared⟩
      · rintro ⟨dict', live', hdict', hlive', hlives, hdeclared⟩
        cases hlive'
        cases hdict.symm.trans hdict'
        exact ⟨hlives, hdeclared⟩

/-- No drift under one path is no drift under any. -/
theorem findDrift_eq_nil_of_path {desired live : Json φ} {path : String}
    (h : findDrift desired live path = .ok []) (path' : String) :
    findDrift desired live path' = .ok [] := by
  induction desired using Json.induct generalizing live path path' with
  | array items ih =>
    obtain ⟨lives, rfl, hlists⟩ := (findDrift_array_iff path).mp h
    cases hkey : driftKey items lives with
    | none => exact (findDrift_plain_iff hkey).mpr ((findDrift_plain_iff hkey).mp hlists)
    | some key =>
      obtain ⟨dict, live, hdict, hlive, hlives, hdeclared⟩ := (findDrift_keyed_iff hkey).mp hlists
      refine (findDrift_keyed_iff hkey).mpr ⟨dict, live, hdict, hlive, hlives, ?_⟩
      intro entry hentry
      obtain ⟨item, hitem, hdrift⟩ := hdeclared entry hentry
      -- an entry of the index is an item of the list
      exact ⟨item, hitem, ih entry.2 ((Indexed.of_index hdict).mem entry hentry) hdrift _⟩
  | object members ih =>
    obtain ⟨lives, rfl, hmembers⟩ := (findDrift_object_iff path).mp h
    refine (findDrift_object_iff path').mpr ⟨lives, rfl, ?_⟩
    intro m hm
    obtain ⟨item, hitem, hdrift⟩ := hmembers m hm
    exact ⟨item, hitem, ih m hm hdrift _⟩
  | null => exact (findDrift_scalar_iff rfl).mpr ((findDrift_scalar_iff rfl).mp h)
  | bool b => exact (findDrift_scalar_iff rfl).mpr ((findDrift_scalar_iff rfl).mp h)
  | int n => exact (findDrift_scalar_iff rfl).mpr ((findDrift_scalar_iff rfl).mp h)
  | float x => exact (findDrift_scalar_iff rfl).mpr ((findDrift_scalar_iff rfl).mp h)
  | string s => exact (findDrift_scalar_iff rfl).mpr ((findDrift_scalar_iff rfl).mp h)

/-- The path only labels the lines. -/
theorem findDrift_path (desired live : Json φ) (path path' : String) :
    findDrift desired live path = .ok [] ↔ findDrift desired live path' = .ok [] :=
  ⟨fun h => findDrift_eq_nil_of_path h path', fun h => findDrift_eq_nil_of_path h path⟩

end Settings
end Quietwire
