/-
  Quietwire.Settings.Index

  Keyed lists in `tools/ci/settings_drift.py`: which key a list goes by, and `_index`,
  which turns a list into a dictionary by that key.

  The dictionary keeps the last of the entries that share a key and none that lack it;
  a `TypeError` is raised where an entry's key is something Python cannot hash.
-/
import Quietwire.Settings.Json

namespace Quietwire
namespace Settings

variable {φ : Type} [Runtime φ]

/-! ## Dictionaries -/

/-- What a program gets for a key that Python cannot hash. -/
inductive TypeError where
  | unhashableList
  | unhashableDict
  deriving DecidableEq, Repr

/-- A dictionary of settings, in the order in which its keys were inserted. -/
abbrev Dict (φ : Type) := List (Json φ × Json φ)

namespace Dict

def get? (dict : Dict φ) (name : Json φ) : Option (Json φ) :=
  (dict.find? fun entry => entry.1.eq name).map Prod.snd

/-- A key that is there keeps its place and its first spelling. -/
def set (dict : Dict φ) (name item : Json φ) : Dict φ :=
  if dict.any fun entry => entry.1.eq name then
    dict.map fun entry => if entry.1.eq name then (entry.1, item) else entry
  else dict ++ [(name, item)]

theorem isSome_get?_iff {dict : Dict φ} {name : Json φ} :
    (dict.get? name).isSome ↔ ∃ entry ∈ dict, entry.1.eq name = true := by
  rw [get?, Option.isSome_map, List.find?_isSome]

theorem exists_of_get? {dict : Dict φ} {name item : Json φ} (h : dict.get? name = some item) :
    ∃ entry ∈ dict, entry.1.eq name = true ∧ entry.2 = item := by
  obtain ⟨entry, hfind, hitem⟩ := Option.map_eq_some_iff.mp h
  have heq : entry.1.eq name = true :=
    List.find?_some (p := fun entry : Json φ × Json φ => entry.1.eq name) hfind
  exact ⟨entry, List.mem_of_find?_eq_some hfind, heq, hitem⟩

/-- No two entries have equal keys. -/
def Distinct (dict : Dict φ) : Prop :=
  ∀ entry ∈ dict, ∀ entry' ∈ dict, entry.1.eq entry'.1 = true → entry = entry'

theorem Distinct.get? {dict : Dict φ} (hdistinct : dict.Distinct) {entry : Json φ × Json φ}
    (hentry : entry ∈ dict) {name : Json φ} (hname : entry.1.eq name = true) :
    dict.get? name = some entry.2 := by
  obtain ⟨item, hitem⟩ := Option.isSome_iff_exists.mp (isSome_get?_iff.mpr ⟨entry, hentry, hname⟩)
  obtain ⟨entry', hentry', hname', rfl⟩ := exists_of_get? hitem
  have hsame := hdistinct entry' hentry' entry hentry (Json.eq_trans hname' (Json.eq_symm hname))
  rw [hitem, hsame]

theorem Distinct.set {dict : Dict φ} (hdistinct : dict.Distinct) (name item : Json φ) :
    (dict.set name item).Distinct := by
  rw [Dict.set]
  split
  -- keys stay as they are, so entries with equal keys were one before
  · have hkey : ∀ entry : Json φ × Json φ,
        (if entry.1.eq name then (entry.1, item) else entry).1 = entry.1 := by
      intro entry
      split <;> rfl
    intro entry hentry entry' hentry' heq
    obtain ⟨old, hold, rfl⟩ := List.mem_map.mp hentry
    obtain ⟨old', hold', rfl⟩ := List.mem_map.mp hentry'
    rw [hkey, hkey] at heq
    rw [hdistinct old hold old' hold' heq]
  · next hnone =>
    -- the new key equals none that is there
    have hfresh : ∀ entry ∈ dict, ¬entry.1.eq name = true := by
      intro entry hentry heq
      exact hnone (List.any_eq_true.mpr ⟨entry, hentry, heq⟩)
    intro entry hentry entry' hentry' heq
    rcases List.mem_append.mp hentry with hold | hnew
    · rcases List.mem_append.mp hentry' with hold' | hnew'
      · exact hdistinct entry hold entry' hold' heq
      · rw [List.mem_singleton.mp hnew'] at heq
        exact absurd heq (hfresh entry hold)
    · rcases List.mem_append.mp hentry' with hold' | hnew'
      · rw [List.mem_singleton.mp hnew] at heq
        exact absurd (Json.eq_symm heq) (hfresh entry' hold')
      · rw [List.mem_singleton.mp hnew, List.mem_singleton.mp hnew']

theorem mem_of_mem_set {dict : Dict φ} {name item : Json φ} {entry : Json φ × Json φ}
    (h : entry ∈ dict.set name item) :
    entry ∈ dict ∨ entry.2 = item ∧ (entry.1 = name ∨ entry.1.eq name = true) := by
  rw [set] at h
  split at h
  · obtain ⟨entry', hentry', heq⟩ := List.mem_map.mp h
    split at heq
    · next hname =>
      subst heq
      exact .inr ⟨rfl, .inr hname⟩
    · exact .inl (heq ▸ hentry')
  · rcases List.mem_append.mp h with h | h
    · exact .inl h
    · rw [List.mem_singleton.mp h]
      exact .inr ⟨rfl, .inl rfl⟩

/-- No key is lost. -/
theorem exists_key_set {dict : Dict φ} {entry : Json φ × Json φ} (h : entry ∈ dict)
    (name item : Json φ) : ∃ entry' ∈ dict.set name item, entry'.1 = entry.1 := by
  rw [set]
  split
  · refine ⟨_, List.mem_map_of_mem h, ?_⟩
    split <;> rfl
  · exact ⟨entry, List.mem_append_left _ h, rfl⟩

/-- The key that was set is there. -/
theorem exists_set (dict : Dict φ) {name : Json φ} (hname : name.isScalar = true)
    (item : Json φ) : ∃ entry ∈ dict.set name item, entry.1.eq name = true := by
  rw [set]
  split
  · next hany =>
    obtain ⟨entry, hentry, heq⟩ := List.any_eq_true.mp hany
    exact ⟨_, List.mem_map_of_mem hentry, by rw [if_pos heq]; exact heq⟩
  · exact ⟨(name, item), List.mem_append_right _ List.mem_cons_self, Json.eq_self hname⟩

end Dict

/-! ## Keyed lists -/

def listKeys : List String := ["name", "type", "context"]

/-- `isinstance(item, dict) and key in item` -/
def hasKey (key : String) (item : Json φ) : Bool := (item.get? key).isSome

/-- `_list_key` -/
def listKey (items : List (Json φ)) : Option String :=
  listKeys.find? fun key => !items.isEmpty && items.all (hasKey key)

/-- One item of the comprehension in `_index`. -/
def indexItem (key : String) (dict : Dict φ) (item : Json φ) : Except TypeError (Dict φ) :=
  match item.get? key with
  | none => .ok dict
  | some (.array _) => .error .unhashableList
  | some (.object _) => .error .unhashableDict
  | some name => .ok (dict.set name item)

/-- `_index` -/
def index (items : List (Json φ)) (key : String) : Except TypeError (Dict φ) :=
  items.foldlM (indexItem key) []

/-! ## What an index holds -/

theorem indexItem_of_isScalar {key : String} {item name : Json φ} (h : item.get? key = some name)
    (hname : name.isScalar = true) (dict : Dict φ) :
    indexItem key dict item = .ok (dict.set name item) := by
  rw [indexItem, h]
  cases name with
  | array items => cases hname
  | object members => cases hname
  | _ => rfl

/-- An item without the key is passed over, one with the key takes its place under it. -/
theorem indexItem_cases {key : String} {dict dict' : Dict φ} {item : Json φ}
    (h : indexItem key dict item = .ok dict') :
    item.get? key = none ∧ dict' = dict ∨
      ∃ name, item.get? key = some name ∧ name.isScalar = true ∧ dict' = dict.set name item := by
  cases hname : item.get? key with
  | none =>
    rw [indexItem, hname] at h
    cases h
    exact .inl ⟨rfl, rfl⟩
  | some name =>
    have hscalar : name.isScalar = true := by
      rw [indexItem, hname] at h
      cases name with
      | array items => cases h
      | object members => cases h
      | _ => rfl
    rw [indexItem_of_isScalar hname hscalar] at h
    cases h
    exact .inr ⟨name, rfl, hscalar, rfl⟩

/-- What the dictionary of the items says about them: no entry is made up, and every key that
    an item carries is there once, with some item under it. -/
structure Indexed (key : String) (items : List (Json φ)) (dict : Dict φ) : Prop where
  hashable : ∀ item ∈ items, ∀ name, item.get? key = some name → name.isScalar = true
  mem : ∀ entry ∈ dict, entry.2 ∈ items
  name : ∀ entry ∈ dict, ∃ name, entry.2.get? key = some name ∧ entry.1.eq name = true
  names : ∀ item ∈ items, ∀ name, item.get? key = some name → ∃ entry ∈ dict, entry.1.eq name = true
  distinct : dict.Distinct

theorem Indexed.nil (key : String) : Indexed key ([] : List (Json φ)) [] := by
  constructor <;> simp [Dict.Distinct]

theorem Indexed.indexItem {key : String} {items : List (Json φ)} {dict dict' : Dict φ}
    (hindexed : Indexed key items dict) {item : Json φ} (h : indexItem key dict item = .ok dict') :
    Indexed key (items ++ [item]) dict' := by
  rcases indexItem_cases h with ⟨hnone, rfl⟩ | ⟨name, hname, hscalar, rfl⟩
  -- passed over
  · have hold : ∀ {item'}, item' ∈ items ++ [item] → ∀ {name}, item'.get? key = some name →
        item' ∈ items := by
      intro item' hmem name hname
      rcases List.mem_append.mp hmem with hmem | hmem
      · exact hmem
      · rw [List.mem_singleton.mp hmem, hnone] at hname
        cases hname
    exact
      { hashable := fun item' hmem name hname =>
          hindexed.hashable item' (hold hmem hname) name hname
        mem := fun entry hentry => List.mem_append_left _ (hindexed.mem entry hentry)
        name := hindexed.name
        names := fun item' hmem name hname => hindexed.names item' (hold hmem hname) name hname
        distinct := hindexed.distinct }
  -- put in its place under its key
  · have hcases : ∀ {item'}, item' ∈ items ++ [item] → item' ∈ items ∨ item' = item := by
      intro item' hmem
      exact (List.mem_append.mp hmem).imp_right List.mem_singleton.mp
    constructor
    · intro item' hmem name' hname'
      rcases hcases hmem with hmem | rfl
      · exact hindexed.hashable item' hmem name' hname'
      · cases hname.symm.trans hname'
        exact hscalar
    · intro entry hentry
      rcases Dict.mem_of_mem_set hentry with hentry | ⟨hitem, -⟩
      · exact List.mem_append_left _ (hindexed.mem entry hentry)
      · exact List.mem_append_right _ (List.mem_singleton.mpr hitem)
    · intro entry hentry
      rcases Dict.mem_of_mem_set hentry with hentry | ⟨hitem, heq | heq⟩
      · exact hindexed.name entry hentry
      · exact ⟨name, hitem ▸ hname, by rw [heq]; exact Json.eq_self hscalar⟩
      · exact ⟨name, hitem ▸ hname, heq⟩
    · intro item' hmem name' hname'
      rcases hcases hmem with hmem | rfl
      · obtain ⟨entry, hentry, heq⟩ := hindexed.names item' hmem name' hname'
        obtain ⟨entry', hentry', hkey⟩ := Dict.exists_key_set hentry name item
        exact ⟨entry', hentry', hkey ▸ heq⟩
      · cases hname.symm.trans hname'
        exact Dict.exists_set dict hscalar item'
    · exact hindexed.distinct.set name item

theorem Indexed.foldlM {key : String} {items items' : List (Json φ)} {dict dict' : Dict φ}
    (hindexed : Indexed key items dict)
    (h : items'.foldlM (Settings.indexItem key) dict = .ok dict') :
    Indexed key (items ++ items') dict' := by
  induction items' generalizing items dict with
  | nil =>
    cases h
    rwa [List.append_nil]
  | cons item items' ih =>
    rw [List.foldlM_cons] at h
    cases hitem : Settings.indexItem key dict item with
    | error error =>
      rw [hitem] at h
      cases h
    | ok middle =>
      rw [hitem] at h
      have hrest := ih (hindexed.indexItem hitem) h
      rwa [List.append_assoc] at hrest

theorem Indexed.of_index {key : String} {items : List (Json φ)} {dict : Dict φ}
    (h : index items key = .ok dict) : Indexed key items dict :=
  (Indexed.nil key).foldlM h

/-- Keys that Python can hash are all that `_index` asks for. -/
theorem exists_index {key : String} {items : List (Json φ)}
    (h : ∀ item ∈ items, ∀ name, item.get? key = some name → name.isScalar = true) :
    ∃ dict, index items key = .ok dict := by
  have hfold : ∀ (items : List (Json φ)) (before : Dict φ),
      (∀ item ∈ items, ∀ name, item.get? key = some name → name.isScalar = true) →
      ∃ dict, items.foldlM (indexItem key) before = .ok dict := by
    intro items
    induction items with
    | nil => exact fun before _ => ⟨before, rfl⟩
    | cons item items ih =>
      intro before h
      have hrest := fun middle => ih middle fun item' hmem => h item' (List.mem_cons_of_mem _ hmem)
      rw [List.foldlM_cons]
      -- an item without the key is no obstacle either
      cases hname : item.get? key with
      | none =>
        rw [indexItem, hname]
        exact hrest before
      | some name =>
        rw [indexItem_of_isScalar hname (h item List.mem_cons_self name hname)]
        exact hrest _
  exact hfold items [] h

end Settings
end Quietwire
