/-
  Quietwire.Settings.Conformance

  What `find_drift` is for: live settings conform to declared ones, and where an empty
  drift says so.

  The check is right on settings if every pair of values that it compares is `Sound`:
  no boolean meets the number it equals, lists that go by a key lose no entry to
  `_index`, and `json.dumps` writes no JSON value of a plain list in two ways.
-/
import Quietwire.Settings.Drift
import Quietwire.Support.Descent

namespace Quietwire
namespace Settings

variable {φ : Type} [Runtime φ]

/-! ## Conformance -/

/-- The key that two lists go by: one that all declared entries carry or, where none are
    declared, all live ones. -/
def commonKey (desired live : List (Json φ)) : Option String :=
  listKey (if desired.isEmpty then live else desired)

def SameKey (key : String) (desired live : Json φ) : Prop :=
  ∃ name name', desired.get? key = some name ∧ live.get? key = some name' ∧
    name.value = name'.value

/-- Live settings conform to declared ones. -/
def Conforms (desired live : Json φ) : Prop :=
  match desired with
  | .object members => ∃ lives, live = .object lives ∧
    ∀ m, (_ : m ∈ members) → ∃ item, lives.lookup m.1 = some item ∧ Conforms m.2 item
  | .array items => ∃ lives, live = .array lives ∧
    match commonKey items lives with
    | some key => (∀ declared ∈ items, ∃ item ∈ lives, SameKey key declared item) ∧
      ∀ item ∈ lives, ∃ declared, ∃ _ : declared ∈ items,
        SameKey key declared item ∧ Conforms declared item
    | none => (items.map Json.value).Perm (lives.map Json.value)
  | desired => desired.value = live.value
termination_by sizeOf desired
decreasing_by
  · exact Json.sizeOf_member_lt ‹_›
  · exact Json.sizeOf_item_lt ‹_›

/-- The entries of two lists that go by a key conform. -/
def AllConform (key : String) (desired live : List (Json φ)) : Prop :=
  (∀ declared ∈ desired, ∃ item ∈ live, SameKey key declared item) ∧
    ∀ item ∈ live, ∃ declared ∈ desired, SameKey key declared item ∧ Conforms declared item

theorem conforms_scalar_iff {desired : Json φ} (h : desired.isScalar = true) {live : Json φ} :
    Conforms desired live ↔ desired.value = live.value := by
  cases desired with
  | array items => cases h
  | object members => cases h
  | _ => rw [Conforms] <;> simp

theorem conforms_object_iff {members : List (String × Json φ)} {live : Json φ} :
    Conforms (.object members) live ↔ ∃ lives, live = .object lives ∧
      ∀ m ∈ members, ∃ item, lives.lookup m.1 = some item ∧ Conforms m.2 item := by
  rw [Conforms]

theorem conforms_array_iff {items : List (Json φ)} {live : Json φ} :
    Conforms (.array items) live ↔
      ∃ lives, live = .array lives ∧ Conforms (.array items) (.array lives) := by
  constructor
  · intro h
    rw [Conforms] at h
    obtain ⟨lives, rfl, h⟩ := h
    exact ⟨lives, rfl, by rw [Conforms]; exact ⟨lives, rfl, h⟩⟩
  · rintro ⟨lives, rfl, h⟩
    exact h

theorem conforms_keyed_iff {items lives : List (Json φ)} {key : String}
    (hkey : commonKey items lives = some key) :
    Conforms (.array items) (.array lives) ↔ AllConform key items lives := by
  rw [Conforms]
  constructor
  · rintro ⟨_, heq, h⟩
    cases heq
    rw [hkey] at h
    obtain ⟨hdeclared, hlive⟩ := h
    refine ⟨hdeclared, fun item hitem => ?_⟩
    obtain ⟨declared, hmem, h⟩ := hlive item hitem
    exact ⟨declared, hmem, h⟩
  · rintro ⟨hdeclared, hlive⟩
    refine ⟨lives, rfl, ?_⟩
    rw [hkey]
    refine ⟨hdeclared, fun item hitem => ?_⟩
    obtain ⟨declared, hmem, h⟩ := hlive item hitem
    exact ⟨declared, hmem, h⟩

theorem conforms_plain_iff {items lives : List (Json φ)} (hkey : commonKey items lives = none) :
    Conforms (.array items) (.array lives) ↔
      (items.map Json.value).Perm (lives.map Json.value) := by
  rw [Conforms]
  constructor
  · rintro ⟨_, heq, h⟩
    cases heq
    rwa [hkey] at h
  · intro h
    refine ⟨lives, rfl, ?_⟩
    rwa [hkey]

/-! ## Keys -/

omit [Runtime φ] in
/-- Lists that conform by a key are compared by that key. -/
theorem driftKey_of_commonKey {items lives : List (Json φ)} {key : String}
    (h : commonKey items lives = some key) : driftKey items lives = some key := by
  cases items with
  | nil => exact h
  | cons item items =>
    have hkey : listKey (item :: items) = some key := h
    rw [driftKey, hkey]
    rfl

/-- Every item has the key, one that Python can hash, and items with equal keys are the same. -/
structure WellKeyed (key : String) (items : List (Json φ)) : Prop where
  keyed : ∀ item ∈ items, ∃ name, item.get? key = some name ∧ name.isScalar = true
  distinct : ∀ item ∈ items, ∀ item' ∈ items, ∀ name name', item.get? key = some name →
    item'.get? key = some name' → name.eq name' = true → item = item'

/-- Well-keyed lists conform by the key by which they are compared. -/
theorem commonKey_of_driftKey {items lives : List (Json φ)} {key : String}
    (h : driftKey items lives = some key) (hitems : WellKeyed key items) :
    commonKey items lives = some key := by
  cases hcommon : commonKey items lives with
  | some key' => exact (driftKey_of_commonKey hcommon).symm.trans h
  | none =>
    cases items with
    | nil =>
      rw [driftKey] at h
      cases h.symm.trans hcommon
    | cons declared rest =>
      -- the key is one of the live list, but all declared entries have it too
      have hnone : listKey (declared :: rest) = none := hcommon
      rw [driftKey, hnone] at h
      have hlisted : listKey lives = some key := h
      have hmem : key ∈ listKeys := List.mem_of_find?_eq_some hlisted
      refine absurd (List.find?_eq_none.mp hnone key hmem) (not_not.mpr ?_)
      rw [Bool.and_eq_true, List.all_eq_true]
      refine ⟨rfl, fun item hitem => ?_⟩
      obtain ⟨name, hname, -⟩ := hitems.keyed item hitem
      rw [hasKey, hname]
      rfl

/-! ## Soundness -/

/-- Lists that go by a key are well keyed; others hold no JSON value written in two ways. -/
def ListSound (desired live : List (Json φ)) : Prop :=
  match driftKey desired live with
  | some key => WellKeyed key desired ∧ WellKeyed key live
  | none => (desired.map Json.value).Perm (live.map Json.value) → desired.Perm live

/-- What makes `find_drift` judge a pair of values rightly, where it judges rightly the pairs
    that it goes on to. -/
def Sound (desired live : Json φ) : Prop :=
  match desired, live with
  | .object _, _ => True
  | .array items, .array lives => ListSound items lives
  | .array _, _ => True
  | desired, live => desired.eq live = true → desired.isBool = live.isBool

/-- The pairs that `find_drift` goes on to from a pair. -/
inductive Child : Json φ × Json φ → Json φ × Json φ → Prop
  | member {members lives : List (String × Json φ)} {m : String × Json φ} {item : Json φ}
      (hmem : m ∈ members) (hlookup : lives.lookup m.1 = some item) :
      Child (.object members, .object lives) (m.2, item)
  | entry {items lives : List (Json φ)} {key : String} {dict live : Dict φ}
      {entry : Json φ × Json φ} {item : Json φ} (hkey : driftKey items lives = some key)
      (hdict : index items key = .ok dict) (hlive : index lives key = .ok live)
      (hmem : entry ∈ dict) (hget : live.get? entry.1 = some item) :
      Child (.array items, .array lives) (entry.2, item)

/-- The pairs that `find_drift` compares on its way through two values. -/
def Compared (desired live : Json φ) (d l : Json φ) : Prop :=
  Relation.ReflTransGen Child (desired, live) (d, l)

theorem Child.sizeOf_lt {a b : Json φ × Json φ} (h : Child a b) : sizeOf b.1 < sizeOf a.1 := by
  cases h with
  | member hmem _ => exact Json.sizeOf_member_lt hmem
  | entry _ hdict _ hmem _ => exact Json.sizeOf_item_lt ((Indexed.of_index hdict).mem _ hmem)

/-! ## Keyed lists -/

/-- What `_index` keeps of two lists conforms: the same keys are there, and under each a live
    entry that conforms to the declared one. -/
def KeptConform (key : String) (desired live : List (Json φ)) : Prop :=
  ∃ dict lives, index desired key = .ok dict ∧ index live key = .ok lives ∧
    (∀ entry ∈ lives, (dict.get? entry.1).isSome) ∧
    ∀ entry ∈ dict, ∃ item, lives.get? entry.1 = some item ∧ Conforms entry.2 item

section Keyed

variable {key : String} {desired live : List (Json φ)} {dict : Dict φ}

/-- An entry that conforms has the key of the declared one. -/
theorem SameKey.of_conforms {declared item name : Json φ}
    (hname : declared.get? key = some name) (hscalar : name.isScalar = true)
    (h : Conforms declared item) : SameKey key declared item := by
  cases declared with
  | object members =>
    obtain ⟨lives, rfl, hmembers⟩ := conforms_object_iff.mp h
    obtain ⟨front, back, hsplit, -⟩ := List.lookup_eq_some_iff.mp hname
    have hmem : (key, name) ∈ members := by
      rw [hsplit]
      exact List.mem_append_right _ List.mem_cons_self
    obtain ⟨name', hname', hconforms⟩ := hmembers (key, name) hmem
    exact ⟨name, name', hname, hname', (conforms_scalar_iff hscalar).mp hconforms⟩
  | _ => cases hname

/-- Names that are the same as JSON are the same key. -/
theorem SameKey.eq {declared item name name' : Json φ} (h : SameKey key declared item)
    (hname : declared.get? key = some name) (hname' : item.get? key = some name')
    (hscalar : name.isScalar = true) : name.eq name' = true := by
  obtain ⟨_, _, hfirst, hsecond, hvalue⟩ := h
  cases hname.symm.trans hfirst
  cases hname'.symm.trans hsecond
  exact ((Json.eq_and_isBool_iff hscalar _).mpr hvalue).1

theorem WellKeyed.isScalar {items : List (Json φ)} (h : WellKeyed key items) {item name : Json φ}
    (hitem : item ∈ items) (hname : item.get? key = some name) : name.isScalar = true := by
  obtain ⟨_, hname', hscalar⟩ := h.keyed item hitem
  cases hname.symm.trans hname'
  exact hscalar

theorem WellKeyed.exists_index {items : List (Json φ)} (h : WellKeyed key items) :
    ∃ dict, index items key = .ok dict :=
  Settings.exists_index fun _ hitem _ hname => h.isScalar hitem hname

/-- `_index` keeps every item of a well-keyed list. -/
theorem WellKeyed.exists_entry {items : List (Json φ)} (h : WellKeyed key items)
    (hindex : index items key = .ok dict) {item : Json φ} (hitem : item ∈ items) :
    ∃ entry ∈ dict, entry.2 = item := by
  have hindexed := Indexed.of_index hindex
  obtain ⟨name, hname, -⟩ := h.keyed item hitem
  obtain ⟨entry, hentry, heq⟩ := hindexed.names item hitem name hname
  obtain ⟨name', hname', heq'⟩ := hindexed.name entry hentry
  have hnames := Json.eq_trans (Json.eq_symm heq') heq
  have hmem := hindexed.mem entry hentry
  exact ⟨entry, hentry, h.distinct _ hmem item hitem name' name hname' hname hnames⟩

theorem KeptConform.allConform (hkept : KeptConform key desired live)
    (hdesired : WellKeyed key desired) (hlive : WellKeyed key live) :
    AllConform key desired live := by
  obtain ⟨dict, lives, hdict, hlives, hback, hforth⟩ := hkept
  have hdeclared := Indexed.of_index hdict
  have hindexed := Indexed.of_index hlives
  -- a kept entry conforms to the kept one on the other side, so it has its key
  have hsame : ∀ entry ∈ dict, ∀ item, Conforms entry.2 item → SameKey key entry.2 item := by
    intro entry hentry item hconforms
    obtain ⟨name, hname, -⟩ := hdeclared.name entry hentry
    have hscalar := hdesired.isScalar (hdeclared.mem entry hentry) hname
    exact .of_conforms hname hscalar hconforms
  constructor
  · intro declared hmem
    obtain ⟨entry, hentry, rfl⟩ := hdesired.exists_entry hdict hmem
    obtain ⟨item, hitem, hconforms⟩ := hforth entry hentry
    obtain ⟨entry', hentry', -, rfl⟩ := Dict.exists_of_get? hitem
    exact ⟨entry'.2, hindexed.mem entry' hentry', hsame entry hentry _ hconforms⟩
  · intro item hmem
    obtain ⟨entry', hentry', rfl⟩ := hlive.exists_entry hlives hmem
    obtain ⟨entry, hentry, heq⟩ := Dict.isSome_get?_iff.mp (hback entry' hentry')
    obtain ⟨item, hitem, hconforms⟩ := hforth entry hentry
    -- each key is there once, so the live entry under this one is `entry'`
    cases hitem.symm.trans (hindexed.distinct.get? hentry' (Json.eq_symm heq))
    exact ⟨entry.2, hdeclared.mem entry hentry, hsame entry hentry _ hconforms, hconforms⟩

theorem AllConform.keptConform (hall : AllConform key desired live)
    (hdesired : WellKeyed key desired) (hlive : WellKeyed key live) :
    KeptConform key desired live := by
  obtain ⟨dict, hdict⟩ := hdesired.exists_index
  obtain ⟨lives, hlives⟩ := hlive.exists_index
  have hdeclared := Indexed.of_index hdict
  have hindexed := Indexed.of_index hlives
  refine ⟨dict, lives, hdict, hlives, fun entry' hentry' => ?_, fun entry hentry => ?_⟩
  -- no live key is undeclared
  · obtain ⟨name', hname', heq'⟩ := hindexed.name entry' hentry'
    obtain ⟨declared, hmem, hkey, -⟩ := hall.2 entry'.2 (hindexed.mem entry' hentry')
    obtain ⟨name, hname, hscalar⟩ := hdesired.keyed declared hmem
    obtain ⟨entry, hentry, heq⟩ := hdeclared.names declared hmem name hname
    have hnames := hkey.eq hname hname' hscalar
    refine Dict.isSome_get?_iff.mpr ⟨entry, hentry, ?_⟩
    exact Json.eq_trans heq (Json.eq_trans hnames (Json.eq_symm heq'))
  -- no declared key is missing
  · obtain ⟨name, hname, heq⟩ := hdeclared.name entry hentry
    have hmem := hdeclared.mem entry hentry
    obtain ⟨item, hitem, hkey⟩ := hall.1 entry.2 hmem
    obtain ⟨name', hname', -⟩ := hlive.keyed item hitem
    obtain ⟨entry', hentry', heq'⟩ := hindexed.names item hitem name' hname'
    have hnames := hkey.eq hname hname' (hdesired.isScalar hmem hname)
    have hget := hindexed.distinct.get? hentry'
      (Json.eq_trans heq' (Json.eq_symm (Json.eq_trans heq hnames)))
    refine ⟨entry'.2, hget, ?_⟩
    -- the declared entry to which the live one conforms has the same key
    obtain ⟨declared, hmem', hkey', hconforms⟩ := hall.2 entry'.2 (hindexed.mem entry' hentry')
    obtain ⟨nameDeclared, hnameDeclared, hscalar⟩ := hdesired.keyed declared hmem'
    obtain ⟨nameLive, hnameLive, heqLive⟩ := hindexed.name entry' hentry'
    have hback := hkey'.eq hnameDeclared hnameLive hscalar
    have hsame : nameDeclared.eq name = true :=
      Json.eq_trans hback (Json.eq_trans (Json.eq_symm heqLive)
        (Json.eq_trans heq' (Json.eq_symm hnames)))
    rwa [← hdesired.distinct declared hmem' entry.2 hmem nameDeclared name hnameDeclared hname
      hsame]

/-- Of well-keyed lists nothing is left out: what is kept conforms if and only if all does. -/
theorem keptConform_iff (hdesired : WellKeyed key desired) (hlive : WellKeyed key live) :
    KeptConform key desired live ↔ AllConform key desired live :=
  ⟨fun h => h.allConform hdesired hlive, fun h => h.keptConform hdesired hlive⟩

end Keyed

/-! ## Every comparison -/

section Judging

variable {items lives : List (Json φ)}

/-- Keyed lists, where the pairs of entries are judged rightly. -/
theorem findDrift_keyed_iff_keptConform {key : String} (hkey : driftKey items lives = some key)
    (hchild : ∀ b, Child (.array items, .array lives) b →
      (findDrift b.1 b.2 "" = .ok [] ↔ Conforms b.1 b.2)) :
    findDrift (.array items) (.array lives) "" = .ok [] ↔ KeptConform key items lives := by
  rw [findDrift_keyed_iff hkey]
  constructor
  · rintro ⟨dict, live, hdict, hlive, hlives, hdeclared⟩
    refine ⟨dict, live, hdict, hlive, hlives, fun entry hentry => ?_⟩
    obtain ⟨item, hitem, hdrift⟩ := hdeclared entry hentry
    have hright := hchild _ (.entry hkey hdict hlive hentry hitem)
    exact ⟨item, hitem, hright.mp ((findDrift_path _ _ _ _).mp hdrift)⟩
  · rintro ⟨dict, live, hdict, hlive, hlives, hdeclared⟩
    refine ⟨dict, live, hdict, hlive, hlives, fun entry hentry => ?_⟩
    obtain ⟨item, hitem, hconforms⟩ := hdeclared entry hentry
    have hright := hchild _ (.entry hkey hdict hlive hentry hitem)
    exact ⟨item, hitem, (findDrift_path _ _ _ _).mp (hright.mpr hconforms)⟩

theorem right_of_listSound (hsound : ListSound items lives)
    (hchild : ∀ b, Child (.array items, .array lives) b →
      (findDrift b.1 b.2 "" = .ok [] ↔ Conforms b.1 b.2)) :
    findDrift (.array items) (.array lives) "" = .ok [] ↔
      Conforms (.array items) (.array lives) := by
  rw [ListSound] at hsound
  cases hdrift : driftKey items lives with
  | some key =>
    rw [hdrift] at hsound
    obtain ⟨hitems, hlives⟩ := hsound
    rw [findDrift_keyed_iff_keptConform hdrift hchild,
      conforms_keyed_iff (commonKey_of_driftKey hdrift hitems)]
    exact keptConform_iff hitems hlives
  | none =>
    rw [hdrift] at hsound
    have hcommon : commonKey items lives = none := by
      cases hcommon : commonKey items lives with
      | none => rfl
      | some key => cases hdrift.symm.trans (driftKey_of_commonKey hcommon)
    rw [findDrift_plain_iff hdrift, conforms_plain_iff hcommon]
    -- entries that are written alike are the same
    exact ⟨fun hperm => hperm.map _, hsound⟩

end Judging

/-- `find_drift` judges a sound pair rightly, if it does so the pairs that it goes on to. -/
theorem sound_local : Descent.Local (Child (φ := φ)) (fun a => findDrift a.1 a.2 "" = .ok [])
    (fun a => Conforms a.1 a.2) (fun a => Sound a.1 a.2) := by
  rintro ⟨desired, live⟩ hsound hchild
  cases desired with
  | object members =>
    -- the same keys are looked up, and the members found are judged rightly
    show findDrift (.object members) live "" = .ok [] ↔ Conforms (.object members) live
    rw [findDrift_object_iff, conforms_object_iff]
    constructor
    · rintro ⟨lives, rfl, h⟩
      refine ⟨lives, rfl, fun m hm => ?_⟩
      obtain ⟨item, hitem, hdrift⟩ := h m hm
      exact ⟨item, hitem, (hchild _ (.member hm hitem)).mp ((findDrift_path _ _ _ _).mp hdrift)⟩
    · rintro ⟨lives, rfl, h⟩
      refine ⟨lives, rfl, fun m hm => ?_⟩
      obtain ⟨item, hitem, hconforms⟩ := h m hm
      exact ⟨item, hitem,
        (findDrift_path _ _ _ _).mp ((hchild _ (.member hm hitem)).mpr hconforms)⟩
  | array items =>
    cases live with
    | array lives => exact right_of_listSound hsound hchild
    | _ =>
      -- a list against anything else is drift, and does not conform
      refine iff_of_false ?_ ?_
      · intro h
        obtain ⟨_, heq, -⟩ := (findDrift_array_iff _).mp h
        cases heq
      · intro h
        obtain ⟨_, heq, -⟩ := conforms_array_iff.mp h
        cases heq
  | _ =>
    show findDrift _ live "" = .ok [] ↔ Conforms _ live
    -- scalars: `==` takes a boolean for a number
    rw [findDrift_scalar_iff rfl, conforms_scalar_iff rfl, ← Json.eq_and_isBool_iff rfl]
    exact ⟨fun heq => ⟨heq, hsound heq⟩, And.left⟩

/-! ## Status checks -/

/-- A runtime for settings in which there are no floats. -/
instance : Runtime Empty where
  floatValue := Empty.elim
  floatRepr := Empty.elim
  floatRepr_injective := fun x => x.elim
  floatRepr_ne_nil := fun x => x.elim
  floatRepr_numeric := fun x => x.elim
  floatRepr_ne_int := fun x => x.elim
  isPrintable := fun _ => false

/-- A required status check, as branch protection rules list them. -/
def statusCheck (context : String) (integrationId : Int) : Json Empty :=
  .object [("context", .string context), ("integration_id", .int integrationId)]

def declaredChecks : List (Json Empty) := [statusCheck "nextest" 15368, statusCheck "lint" 15368]

/-- The declared checks in another order, with any app for the first. -/
def liveChecks (nextest : Int) : List (Json Empty) :=
  [statusCheck "lint" 15368, statusCheck "nextest" nextest]

def declaredRefs : List (Json Empty) :=
  [.string "~DEFAULT_BRANCH", .string "refs/heads/release/*"]

def liveRefs : List (Json Empty) := [.string "refs/heads/release/*", .string "~DEFAULT_BRANCH"]

/-- A declared ruleset. -/
def declaredRuleset : Json Empty :=
  .object [("include", .array declaredRefs), ("strict", .bool true),
    ("checks", .array declaredChecks)]

/-- A live ruleset, which has a member that is not declared. -/
def liveRuleset (nextest : Int) : Json Empty :=
  .object [("id", .int 1), ("checks", .array (liveChecks nextest)), ("strict", .bool true),
    ("include", .array liveRefs)]

/-- The pairs that are compared in the two rulesets. -/
inductive RulesetPair (nextest : Int) : Json Empty × Json Empty → Prop
  | ruleset : RulesetPair nextest (declaredRuleset, liveRuleset nextest)
  | refs : RulesetPair nextest (.array declaredRefs, .array liveRefs)
  | strict : RulesetPair nextest (.bool true, .bool true)
  | checks : RulesetPair nextest (.array declaredChecks, .array (liveChecks nextest))
  | check (context : String) (id id' : Int) :
    RulesetPair nextest (statusCheck context id, statusCheck context id')
  | context (context : String) : RulesetPair nextest (.string context, .string context)
  | id (id id' : Int) : RulesetPair nextest (.int id, .int id')

theorem RulesetPair.child {nextest : Int} {a b : Json Empty × Json Empty}
    (ha : RulesetPair nextest a) (h : Child a b) : RulesetPair nextest b := by
  cases ha with
  | ruleset =>
    obtain ⟨hmem, hlookup⟩ | _ := h
    obtain rfl | hmem := List.mem_cons.mp hmem
    · cases hlookup
      exact .refs
    · obtain rfl | hmem := List.mem_cons.mp hmem
      · cases hlookup
        exact .strict
      · rw [List.mem_singleton.mp hmem] at hlookup ⊢
        cases hlookup
        exact .checks
  | checks =>
    cases h with
    | entry hkey hdict hlive hmem hget =>
      cases hkey
      cases hdict
      cases hlive
      obtain rfl | hmem := List.mem_cons.mp hmem
      · cases hget
        exact .check ..
      · rw [List.mem_singleton.mp hmem] at hget ⊢
        cases hget
        exact .check ..
  | check context id id' =>
    obtain ⟨hmem, hlookup⟩ | _ := h
    obtain rfl | hmem := List.mem_cons.mp hmem
    · cases hlookup
      exact .context context
    · rw [List.mem_singleton.mp hmem] at hlookup ⊢
      cases hlookup
      exact .id id id'
  | refs =>
    -- a list of strings has no key
    cases h with
    | entry hkey _ _ _ _ => cases hkey
  | strict => nomatch h
  | context _ => nomatch h
  | id _ _ => nomatch h

theorem RulesetPair.of_compared {nextest : Int} {d l : Json Empty}
    (h : Compared declaredRuleset (liveRuleset nextest) d l) : RulesetPair nextest (d, l) := by
  have hpair : ∀ b, Relation.ReflTransGen Child (declaredRuleset, liveRuleset nextest) b →
      RulesetPair nextest b := by
    intro b hb
    induction hb with
    | refl => exact .ruleset
    | tail _ hchild ih => exact ih.child hchild
  exact hpair (d, l) h

theorem RulesetPair.isBool_eq {nextest : Int} {a : Json Empty × Json Empty}
    (h : RulesetPair nextest a) : a.1.isBool = a.2.isBool := by
  cases h <;> rfl

/-- Two checks for different contexts are well keyed. -/
theorem wellKeyed_pair {context context' : String} (hne : context ≠ context') (id id' : Int) :
    WellKeyed "context" [statusCheck context id, statusCheck context' id'] := by
  constructor
  · intro item hitem
    obtain rfl | hitem := List.mem_cons.mp hitem
    · exact ⟨_, rfl, rfl⟩
    · rw [List.mem_singleton.mp hitem]
      exact ⟨_, rfl, rfl⟩
  · intro item hitem item' hitem' name name' hname hname' heq
    obtain rfl | hitem := List.mem_cons.mp hitem
    · obtain rfl | hitem' := List.mem_cons.mp hitem'
      · rfl
      · cases List.mem_singleton.mp hitem'
        cases hname
        cases hname'
        exact absurd (beq_iff_eq.mp heq) hne
    · cases List.mem_singleton.mp hitem
      obtain rfl | hitem' := List.mem_cons.mp hitem'
      · cases hname
        cases hname'
        exact absurd (beq_iff_eq.mp heq).symm hne
      · exact (List.mem_singleton.mp hitem').symm

/-- The lists with a key are those of checks. -/
theorem RulesetPair.wellKeyed {nextest : Int} {items lives : List (Json Empty)} {key : String}
    (h : RulesetPair nextest (.array items, .array lives))
    (hkey : driftKey items lives = some key) : WellKeyed key items ∧ WellKeyed key lives := by
  cases h with
  | refs => cases hkey
  | checks =>
    cases hkey
    exact ⟨wellKeyed_pair (by decide) 15368 15368, wellKeyed_pair (by decide) 15368 nextest⟩

/-- The lists without a key are those of refs. -/
theorem RulesetPair.perm {nextest : Int} {items lives : List (Json Empty)}
    (h : RulesetPair nextest (.array items, .array lives)) (hkey : driftKey items lives = none) :
    items.Perm lives := by
  cases h with
  | refs => exact .swap ..
  | checks => cases hkey

theorem conforms_statusCheck_iff {context : String} {id id' : Int} :
    Conforms (statusCheck context id) (statusCheck context id') ↔ id = id' := by
  rw [statusCheck, conforms_object_iff]
  constructor
  · rintro ⟨_, hlive, h⟩
    cases hlive
    obtain ⟨_, hid, hvalue⟩ := h ("integration_id", .int id) (by simp)
    cases hid
    rw [conforms_scalar_iff rfl] at hvalue
    simpa [Json.value] using hvalue
  · rintro rfl
    refine ⟨_, rfl, ?_⟩
    rw [List.forall_mem_cons, List.forall_mem_singleton]
    exact ⟨⟨_, rfl, (conforms_scalar_iff rfl).mpr rfl⟩,
      ⟨_, rfl, (conforms_scalar_iff rfl).mpr rfl⟩⟩

theorem sameKey_statusCheck_iff {context context' : String} {id id' : Int} :
    SameKey "context" (statusCheck context id) (statusCheck context' id') ↔ context = context' := by
  constructor
  · rintro ⟨name, name', hname, hname', hvalue⟩
    cases hname
    cases hname'
    simpa [Json.value] using hvalue
  · rintro rfl
    exact ⟨_, _, rfl, rfl, rfl⟩

theorem conforms_ruleset_iff {nextest : Int} :
    Conforms declaredRuleset (liveRuleset nextest) ↔ nextest = 15368 := by
  rw [declaredRuleset, conforms_object_iff]
  have hkey : commonKey declaredChecks (liveChecks nextest) = some "context" := rfl
  constructor
  · rintro ⟨_, hlive, h⟩
    cases hlive
    obtain ⟨_, hitem, hchecks⟩ := h ("checks", .array declaredChecks) (by simp)
    cases hitem
    obtain ⟨declared, hmem, hsame, hconforms⟩ :=
      ((conforms_keyed_iff hkey).mp hchecks).2 (statusCheck "nextest" nextest)
        (List.mem_cons_of_mem _ List.mem_cons_self)
    obtain rfl | hmem := List.mem_cons.mp hmem
    · exact (conforms_statusCheck_iff.mp hconforms).symm
    · rw [List.mem_singleton.mp hmem, sameKey_statusCheck_iff] at hsame
      exact absurd hsame (by decide)
  · rintro rfl
    refine ⟨_, rfl, ?_⟩
    rw [List.forall_mem_cons, List.forall_mem_cons, List.forall_mem_singleton]
    have hrefs : Conforms (.array declaredRefs) (.array liveRefs) :=
      (conforms_plain_iff rfl).mpr (.swap ..)
    refine ⟨⟨_, rfl, hrefs⟩, ⟨_, rfl, (conforms_scalar_iff rfl).mpr rfl⟩, _, rfl,
      (conforms_keyed_iff hkey).mpr ?_⟩
    have hself : ∀ item ∈ declaredChecks, SameKey "context" item item ∧ Conforms item item := by
      rw [declaredChecks, List.forall_mem_cons, List.forall_mem_singleton]
      exact ⟨⟨sameKey_statusCheck_iff.mpr rfl, conforms_statusCheck_iff.mpr rfl⟩,
        ⟨sameKey_statusCheck_iff.mpr rfl, conforms_statusCheck_iff.mpr rfl⟩⟩
    -- the live checks are the declared ones in another order
    have hswap : (liveChecks 15368).Perm declaredChecks := .swap _ _ _
    constructor
    · intro declared hmem
      exact ⟨declared, hswap.mem_iff.mpr hmem, (hself declared hmem).1⟩
    · intro item hmem
      have hdeclared := hswap.mem_iff.mp hmem
      exact ⟨item, hdeclared, hself item hdeclared⟩

/-! ## Exactness -/

/-- Settings whose keyed lists are well keyed: no drift is missed and none is made up, but for
    booleans beside numbers and entries of plain lists that are written in two ways. -/
theorem findDrift_exact_of_wellKeyed {desired live : Json φ}
    (hscalar : ∀ d l, Compared desired live d l → d.eq l = true → d.isBool = l.isBool)
    (hkeyed : ∀ items lives key, Compared desired live (.array items) (.array lives) →
      driftKey items lives = some key → WellKeyed key items ∧ WellKeyed key lives)
    (hplain : ∀ items lives, Compared desired live (.array items) (.array lives) →
      driftKey items lives = none → (items.map Json.value).Perm (lives.map Json.value) →
      items.Perm lives) :
    findDrift desired live "" = .ok [] ↔ Conforms desired live := by
  refine sound_local.right (fun a : Json φ × Json φ => sizeOf a.1) (fun _ _ h => h.sizeOf_lt)
    (desired, live) ?_
  rintro ⟨d, l⟩ hcompared
  cases d with
  | object members => trivial
  | array items =>
    cases l with
    | array lives =>
      show ListSound items lives
      rw [ListSound]
      cases hdrift : driftKey items lives with
      | some key => exact hkeyed items lives key hcompared hdrift
      | none => exact hplain items lives hcompared hdrift
    | _ => trivial
  | _ => exact hscalar _ l hcompared

/-- Checks and refs in another order, and a member that is not declared, are no drift; another
    app for a check is. -/
theorem findDrift_exact_of_wellKeyed_ruleset :
    findDrift declaredRuleset (liveRuleset 15368) "" = .ok [] ∧
    findDrift declaredRuleset (liveRuleset 1) "" ≠ .ok [] := by
  have hexact : ∀ nextest, findDrift declaredRuleset (liveRuleset nextest) "" = .ok [] ↔
      Conforms declaredRuleset (liveRuleset nextest) := fun nextest =>
    findDrift_exact_of_wellKeyed
      (fun _ _ h _ => (RulesetPair.of_compared h).isBool_eq)
      (fun _ _ _ h hkey => (RulesetPair.of_compared h).wellKeyed hkey)
      (fun _ _ h hkey _ => (RulesetPair.of_compared h).perm hkey)
  constructor
  · exact (hexact 15368).mpr (conforms_ruleset_iff.mpr rfl)
  · intro hdrift
    exact absurd (conforms_ruleset_iff.mp ((hexact 1).mp hdrift)) (by decide)

/-- A live status check that another app may answer is not reported: `_index` keeps only the
    later of the two entries for one context. -/
theorem drift_of_shared_key_missed :
    findDrift (.object [("checks", .array [statusCheck "nextest" 15368])])
        (.object [("checks", .array [statusCheck "nextest" 1, statusCheck "nextest" 15368])]) ""
      = .ok [] ∧
    ¬Conforms (.object [("checks", .array [statusCheck "nextest" 15368])])
        (.object [("checks", .array [statusCheck "nextest" 1, statusCheck "nextest" 15368])]) := by
  constructor
  · have hkey : driftKey [statusCheck "nextest" 15368]
        [statusCheck "nextest" 1, statusCheck "nextest" 15368] = some "context" := by decide
    -- the index of the live list holds the second check only
    have hkept : findDrift (statusCheck "nextest" 15368) (statusCheck "nextest" 15368)
        (itemPath "checks" (.string "nextest" : Json Empty)) = .ok [] := by
      rw [statusCheck, findDrift_object_iff]
      refine ⟨_, rfl, ?_⟩
      rw [List.forall_mem_cons, List.forall_mem_singleton]
      exact ⟨⟨_, rfl, (findDrift_scalar_iff rfl).mpr (by decide)⟩,
        ⟨_, rfl, (findDrift_scalar_iff rfl).mpr (by decide)⟩⟩
    rw [findDrift_object_iff]
    refine ⟨_, rfl, ?_⟩
    rw [List.forall_mem_singleton]
    refine ⟨_, rfl, (findDrift_keyed_iff hkey).mpr ⟨_, _, rfl, rfl, by decide, ?_⟩⟩
    exact List.forall_mem_singleton.mpr ⟨_, rfl, hkept⟩
  · intro h
    have hkey : commonKey [statusCheck "nextest" 15368]
        [statusCheck "nextest" 1, statusCheck "nextest" 15368] = some "context" := by decide
    obtain ⟨_, heq, hmembers⟩ := conforms_object_iff.mp h
    cases heq
    obtain ⟨_, hitem, hchecks⟩ := List.forall_mem_singleton.mp hmembers
    cases hitem
    -- the first check would have to conform to the one that is declared
    obtain ⟨declared, hmem, -, hconforms⟩ :=
      ((conforms_keyed_iff hkey).mp hchecks).2 (statusCheck "nextest" 1) List.mem_cons_self
    rw [List.mem_singleton.mp hmem, conforms_statusCheck_iff] at hconforms
    exact absurd hconforms (by decide)

end Settings
end Quietwire
