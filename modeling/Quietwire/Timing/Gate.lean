/-
  Quietwire.Timing.Gate

  The constant-time gate of `tools/ci/constant-time.sh`: the tallies that its `awk`
  program keeps over the log, the verdict it reaches, and the loop over the runs.

  A line of the log is the name of a bench and the two numbers read from it; the
  numbers are exact, and the text around them is left out.
-/
import Mathlib.Logic.Function.Basic
import Mathlib.Data.List.Basic

namespace Quietwire
namespace Timing

/-- A line with `max t = `. -/
structure Line where
  name : String
  t : Rat
  /-- In millions. -/
  n : Rat
  deriving DecidableEq

/-- `floor`. -/
def floor : Rat := 1000000

/-- `threshold`. -/
def threshold : Rat := 9 / 2

/-- `name ~ /^mutant_/`. -/
def isMutant (name : String) : Bool := "mutant_".toList.isPrefixOf name.toList

/-- `t < -threshold || t > threshold`. -/
def Crosses (t : Rat) : Prop := t < -threshold ∨ threshold < t

instance : DecidablePred Crosses := fun t => inferInstanceAs (Decidable (t < -threshold ∨ _))

/-- `sign`. -/
def sign (t : Rat) : Int := if t < 0 then -1 else 1

/-- The run kept enough samples. -/
def Line.Usable (line : Line) : Prop := ¬ line.n * 1000000 < floor

instance : DecidablePred Line.Usable := fun line =>
  inferInstanceAs (Decidable (¬ line.n * 1000000 < floor))

/-- What `awk` keeps.  A name is in `usable` when it is in `order`. -/
structure Tallies where
  order : List String
  usable : String → Nat
  leaked : String → Nat
  direction : String → Int

def Tallies.empty : Tallies := ⟨[], fun _ => 0, fun _ => 0, fun _ => 0⟩

/-- `if (!(name in usable)) { .. }`. -/
def Tallies.enter (tallies : Tallies) (name : String) : Tallies :=
  if name ∈ tallies.order then tallies
  else { tallies with
    order := tallies.order ++ [name]
    usable := Function.update tallies.usable name 0
    leaked := Function.update tallies.leaked name 0 }

def Tallies.count (tallies : Tallies) (name : String) (t : Rat) : Tallies :=
  let usable := tallies.usable name + 1
  { tallies with
    usable := Function.update tallies.usable name usable
    leaked :=
      if Crosses t then Function.update tallies.leaked name (tallies.leaked name + 1)
      else tallies.leaked
    direction :=
      if usable = 1 then Function.update tallies.direction name (sign t)
      else if tallies.direction name ≠ sign t then Function.update tallies.direction name 0
      else tallies.direction }

/-- The action on one line. -/
def Tallies.read (tallies : Tallies) (line : Line) : Tallies :=
  let tallies := tallies.enter line.name
  if line.n * 1000000 < floor then tallies else tallies.count line.name line.t

def tally (log : List Line) : Tallies := log.foldl Tallies.read .empty

/-- What the verdict prints. -/
inductive Finding where
  | noBench
  | noSamples (name : String)
  | blind (name : String) (missed runs : Nat)
  | leaks (name : String) (runs : Nat)
  deriving DecidableEq, Repr

def Finding.message : Finding → String
  | .noBench => "no bench reported a t statistic"
  | .noSamples name => name ++ ": no run kept 1000000 samples through cropping"
  | .blind name missed runs =>
    name ++ ": |t| stayed below 4.5 in " ++ toString missed ++ " of " ++ toString runs ++
      " runs — the harness cannot see a known leak"
  | .leaks name runs =>
    name ++ ": |t| above 4.5 with the same sign in all " ++ toString runs ++
      " runs — the operation leaks timing"

/-- The `END` action, on one bench. -/
def Tallies.finding? (tallies : Tallies) (name : String) : Option Finding :=
  let runs := tallies.usable name
  if runs = 0 then some (.noSamples name)
  else if isMutant name ∧ tallies.leaked name < runs then
    some (.blind name (runs - tallies.leaked name) runs)
  else if ¬ isMutant name ∧ tallies.leaked name = runs ∧ tallies.direction name ≠ 0 then
    some (.leaks name runs)
  else none

def Tallies.findings (tallies : Tallies) : List Finding :=
  if tallies.order.length = 0 then [.noBench] else tallies.order.filterMap tallies.finding?

/-- `verdict`, which fails when it finds something. -/
def verdict (log : List Line) : List Finding := (tally log).findings

/-- The exit status of a run of the benches that fails. -/
abbrev Failure := { status : Nat // status ≠ 0 }

/-- The loop over the attempts, with what each run of the benches would print, and the verdict
    after it: the exit status of the script. -/
def gateFrom (log : List Line) : List (Except Failure (List Line)) → Nat
  | [] => if verdict log = [] then 0 else 1
  -- `set -e` and `pipefail`
  | .error failure :: _ => failure.val
  | .ok output :: rest =>
    if verdict (log ++ output) = [] then 0 else gateFrom (log ++ output) rest

def gate (runs : List (Except Failure (List Line))) : Nat := gateFrom [] runs

/-! ## What the tallies say -/

/-- The statistics of a bench that count. -/
def statistics (log : List Line) (name : String) : List Rat :=
  (log.filter fun line => line.name = name ∧ line.Usable).map Line.t

/-- Runs of both signs. -/
def Mixed (runs : List Rat) : Prop := ∃ t ∈ runs, ∃ u ∈ runs, t < 0 ∧ ¬ u < 0

/-- `direction` is the sign of all runs, or 0 if they are mixed. -/
def Directs (direction : Int) (runs : List Rat) : Prop :=
  (direction ≠ 0 ∧ ∀ t ∈ runs, sign t = direction) ∨ (direction = 0 ∧ Mixed runs)

structure Tallied (tallies : Tallies) (log : List Line) : Prop where
  order : ∀ name, name ∈ tallies.order ↔ name ∈ log.map Line.name
  usable : ∀ name, tallies.usable name = (statistics log name).length
  leaked : ∀ name, tallies.leaked name = ((statistics log name).filter Crosses).length
  direction : ∀ name, statistics log name ≠ [] →
    Directs (tallies.direction name) (statistics log name)

variable {tallies : Tallies} {log more : List Line} {line : Line} {name : String}

theorem statistics_append (log more : List Line) (name : String) :
    statistics (log ++ more) name = statistics log name ++ statistics more name := by
  rw [statistics, List.filter_append, List.map_append]
  rfl

theorem statistics_singleton (line : Line) (name : String) :
    statistics [line] name = if line.name = name ∧ line.Usable then [line.t] else [] := by
  by_cases h : line.name = name ∧ line.Usable
  · simp [statistics, h]
  · rw [if_neg h]
    simp [statistics, h]

theorem mem_statistics {t : Rat} : t ∈ statistics log name ↔
    ∃ line ∈ log, line.name = name ∧ line.Usable ∧ line.t = t := by
  simp only [statistics, List.mem_map, List.mem_filter, decide_eq_true_eq, and_assoc]

/-- A bench that no line names has no statistics. -/
theorem statistics_eq_nil (h : name ∉ log.map Line.name) : statistics log name = [] := by
  rw [List.eq_nil_iff_forall_not_mem]
  intro t ht
  obtain ⟨line, hline, hname, -⟩ := mem_statistics.mp ht
  exact h (hname ▸ List.mem_map_of_mem hline)

theorem sign_ne_zero (t : Rat) : sign t ≠ 0 := by
  unfold sign
  split
  · decide
  · decide

section Count

variable (tallies) (t : Rat)

theorem count_of_ne {other : String} (hne : other ≠ name) :
    (tallies.count name t).usable other = tallies.usable other ∧
    (tallies.count name t).leaked other = tallies.leaked other ∧
    (tallies.count name t).direction other = tallies.direction other := by
  refine ⟨Function.update_of_ne hne _ _, ?_, ?_⟩
  · rw [Tallies.count]
    dsimp only
    split
    · exact Function.update_of_ne hne _ _
    · rfl
  · rw [Tallies.count]
    dsimp only
    split
    · exact Function.update_of_ne hne _ _
    · split
      · exact Function.update_of_ne hne _ _
      · rfl

theorem count_usable (name : String) :
    (tallies.count name t).usable name = tallies.usable name + 1 :=
  Function.update_self _ _ _

theorem count_leaked (name : String) : (tallies.count name t).leaked name =
    tallies.leaked name + if Crosses t then 1 else 0 := by
  rw [Tallies.count]
  dsimp only
  split
  · exact Function.update_self _ _ _
  · rfl

/-- The direction is that of the first run that counts, and 0 from the first run that goes the
    other way. -/
theorem count_direction (name : String) : (tallies.count name t).direction name =
    if tallies.usable name = 0 then sign t
    else if tallies.direction name ≠ sign t then 0 else tallies.direction name := by
  rw [Tallies.count]
  dsimp only
  by_cases hfirst : tallies.usable name = 0
  · rw [if_pos (by omega), if_pos hfirst]
    exact Function.update_self _ _ _
  · rw [if_neg (by omega), if_neg hfirst]
    split
    · exact Function.update_self _ _ _
    · rfl

end Count

theorem sign_eq_iff {t u : Rat} : sign t = sign u ↔ (t < 0 ↔ u < 0) := by
  unfold sign
  by_cases ht : t < 0
  · by_cases hu : u < 0
    · simp [ht, hu]
    · simp [ht, hu]
  · by_cases hu : u < 0
    · simp [ht, hu]
    · simp [ht, hu]

theorem Mixed.mono {runs more : List Rat} (h : Mixed runs) (hsub : runs ⊆ more) : Mixed more := by
  obtain ⟨t, ht, u, hu, hmixed⟩ := h
  exact ⟨t, hsub ht, u, hsub hu, hmixed⟩

/-- What the direction says is kept by one more run. -/
theorem Directs.append {runs : List Rat} {direction : Int}
    (h : runs ≠ [] → Directs direction runs) (t : Rat) :
    Directs (if runs.length = 0 then sign t else if direction ≠ sign t then 0 else direction)
      (runs ++ [t]) := by
  by_cases hfirst : runs = []
  · subst hfirst
    exact .inl ⟨sign_ne_zero t, by simp⟩
  · rw [if_neg (fun hlen => hfirst (List.length_eq_zero_iff.mp hlen))]
    rcases h hfirst with ⟨hne, hall⟩ | ⟨rfl, hmixed⟩
    · by_cases hsame : direction = sign t
      · rw [if_neg (not_not.mpr hsame)]
        refine .inl ⟨hne, List.forall_mem_append.mpr ⟨hall, ?_⟩⟩
        exact List.forall_mem_singleton.mpr hsame.symm
      · -- the run goes the other way than those before it
        rw [if_pos hsame]
        obtain ⟨u, hu⟩ := List.exists_mem_of_ne_nil _ hfirst
        have hsigns : ¬ (u < 0 ↔ t < 0) := by
          rw [← sign_eq_iff, hall u hu]
          exact hsame
        have hold : u ∈ runs ++ [t] := List.mem_append_left _ hu
        have hnew : t ∈ runs ++ [t] := List.mem_append_right _ List.mem_cons_self
        by_cases hnegative : t < 0
        · exact .inr ⟨rfl, t, hnew, u, hold, hnegative, fun hu => hsigns (iff_of_true hu hnegative)⟩
        · refine .inr ⟨rfl, u, hold, t, hnew, ?_, hnegative⟩
          by_contra hpositive
          exact hsigns (iff_of_false hpositive hnegative)
    · rw [if_pos (sign_ne_zero t).symm]
      exact .inr ⟨rfl, hmixed.mono (List.subset_append_left _ _)⟩

theorem tallied_empty : Tallied .empty [] where
  order _ := Iff.rfl
  usable _ := rfl
  leaked _ := rfl
  direction _ h := absurd rfl h

namespace Tallied

variable (h : Tallied tallies log)
include h

/-- A new bench starts from what `awk` reads of an unset variable. -/
theorem enter_eq (name : String) : tallies.enter name =
    { tallies with
      order := if name ∈ tallies.order then tallies.order else tallies.order ++ [name] } := by
  rw [Tallies.enter]
  split
  · rfl
  · next hnew =>
    have hnone := statistics_eq_nil ((h.order name).not.mp hnew)
    have husable : Function.update tallies.usable name 0 = tallies.usable := by
      rw [Function.update_eq_self_iff, h.usable, hnone]
      rfl
    have hleaked : Function.update tallies.leaked name 0 = tallies.leaked := by
      rw [Function.update_eq_self_iff, h.leaked, hnone]
      rfl
    rw [husable, hleaked]

theorem mem_enter (name other : String) :
    other ∈ (tallies.enter name).order ↔ other ∈ log.map Line.name ∨ other = name := by
  rw [h.enter_eq name]
  show other ∈ (if name ∈ tallies.order then _ else _) ↔ _
  split
  · next hmem =>
    rw [h.order]
    refine ⟨.inl, ?_⟩
    rintro (hold | rfl)
    · exact hold
    · exact (h.order _).mp hmem
  · rw [List.mem_append, h.order, List.mem_singleton]

theorem read (line : Line) : Tallied (tallies.read line) (log ++ [line]) := by
  have horder (name : String) : name ∈ (tallies.enter line.name).order ↔
      name ∈ (log ++ [line]).map Line.name := by
    rw [h.mem_enter, List.map_append, List.mem_append, List.map_singleton, List.mem_singleton]
  by_cases hfloor : line.n * 1000000 < floor
  · -- the line does not count
    have hsame (name : String) : statistics (log ++ [line]) name = statistics log name := by
      rw [statistics_append, statistics_singleton,
        if_neg (fun hcounts => hcounts.2 hfloor), List.append_nil]
    have hread : tallies.read line = tallies.enter line.name := if_pos hfloor
    refine ⟨fun name => ?_, fun name => ?_, fun name => ?_, fun name => ?_⟩
    · rw [hread, horder]
    · rw [hread, h.enter_eq, hsame, ← h.usable]
    · rw [hread, h.enter_eq, hsame, ← h.leaked]
    · rw [hread, h.enter_eq, hsame]
      exact h.direction name
  · have hread : tallies.read line = (tallies.enter line.name).count line.name line.t :=
      if_neg hfloor
    have hstats (name : String) : statistics (log ++ [line]) name
        = statistics log name ++ if line.name = name then [line.t] else [] := by
      rw [statistics_append, statistics_singleton]
      simp only [Line.Usable, hfloor, not_false_eq_true, and_true]
    rw [hread]
    refine ⟨horder, fun name => ?_, fun name => ?_, fun name => ?_⟩
    · rw [h.enter_eq, hstats]
      by_cases hname : line.name = name
      · rw [← hname, count_usable, if_pos rfl, List.length_append, h.usable]
        rfl
      · rw [(count_of_ne _ _ (Ne.symm hname)).1, if_neg hname, List.append_nil, h.usable]
    · rw [h.enter_eq, hstats]
      by_cases hname : line.name = name
      · rw [← hname, count_leaked, if_pos rfl, List.filter_append, List.length_append, h.leaked]
        by_cases hcrosses : Crosses line.t
        · simp [hcrosses]
        · simp [hcrosses]
      · rw [(count_of_ne _ _ (Ne.symm hname)).2.1, if_neg hname, List.append_nil, h.leaked]
    · rw [h.enter_eq, hstats]
      by_cases hname : line.name = name
      · rw [← hname, count_direction, if_pos rfl, h.usable]
        exact fun _ => .append (h.direction _) _
      · rw [(count_of_ne _ _ (Ne.symm hname)).2.2, if_neg hname, List.append_nil]
        exact h.direction name

end Tallied

theorem Tallied.foldl (h : Tallied tallies log) (more : List Line) :
    Tallied (more.foldl Tallies.read tallies) (log ++ more) := by
  induction more generalizing tallies log with
  | nil =>
    rw [List.append_nil]
    exact h
  | cons line more ih =>
    rw [← List.singleton_append, ← List.append_assoc]
    exact ih (h.read line)

theorem tallied (log : List Line) : Tallied (tally log) log := tallied_empty.foldl log

/-! ## The verdict -/

/-- A bench is cleared by the runs that count: a mutant by crossing the threshold in all of
    them, any other by staying within it in one, or by crossing it on both sides. -/
def Cleared (log : List Line) (name : String) : Prop :=
  statistics log name ≠ [] ∧
    if isMutant name then ∀ t ∈ statistics log name, Crosses t
    else (∃ t ∈ statistics log name, ¬ Crosses t) ∨ Mixed (statistics log name)

theorem Directs.eq_zero_iff {runs : List Rat} {direction : Int} (h : Directs direction runs) :
    direction = 0 ↔ Mixed runs := by
  rcases h with ⟨hne, hall⟩ | ⟨heq, hmixed⟩
  · refine iff_of_false hne ?_
    rintro ⟨t, ht, u, hu, hnegative, hpositive⟩
    exact hpositive ((sign_eq_iff.mp ((hall t ht).trans (hall u hu).symm)).mp hnegative)
  · exact iff_of_true heq hmixed

theorem Tallied.finding?_eq_none_iff (h : Tallied tallies log) :
    tallies.finding? name = none ↔ Cleared log name := by
  rw [Tallies.finding?, Cleared, h.usable, h.leaked]
  by_cases hnone : statistics log name = []
  · simp [hnone]
  · have hdirection := (h.direction name hnone).eq_zero_iff
    have hall : ((statistics log name).filter Crosses).length = (statistics log name).length ↔
        ∀ t ∈ statistics log name, Crosses t := by
      simp [List.length_filter_eq_length_iff]
    have hle := List.length_filter_le Crosses (statistics log name)
    have hexists : ¬ (∀ t ∈ statistics log name, Crosses t) ↔
        ∃ t ∈ statistics log name, ¬ Crosses t := by
      simp
    rw [if_neg (fun hlen => hnone (List.length_eq_zero_iff.mp hlen))]
    cases hmutant : isMutant name with
    | true =>
      have hlt : ((statistics log name).filter Crosses).length < (statistics log name).length ↔
          ¬ ∀ t ∈ statistics log name, Crosses t := by
        rw [← hall]
        omega
      simp [hlt, hnone]
    | false =>
      rw [← hexists, ← hdirection, ← hall]
      simp only [Bool.false_eq_true, false_and, if_false, not_false_eq_true, true_and, ne_eq,
        hnone, ite_eq_right_iff, reduceCtorEq, imp_false, not_and_or, not_not]

/-! ## More runs -/

theorem statistics_subset (log more : List Line) (name : String) :
    statistics log name ⊆ statistics (log ++ more) name := by
  rw [statistics_append]
  exact List.subset_append_left _ _

/-- More runs do not condemn a bench that is not a mutant. -/
theorem Cleared.append (hreal : isMutant name = false) (h : Cleared log name)
    (more : List Line) : Cleared (log ++ more) name := by
  have hsub := statistics_subset log more name
  obtain ⟨hne, hcleared⟩ := h
  rw [hreal] at hcleared
  refine ⟨fun hnil => hne (List.eq_nil_of_subset_nil (hnil ▸ hsub)), ?_⟩
  rw [hreal]
  rcases hcleared with ⟨t, ht, hwithin⟩ | hmixed
  · exact .inl ⟨t, hsub ht, hwithin⟩
  · exact .inr (hmixed.mono hsub)

/-- More runs do not clear a mutant that has stayed within the threshold once. -/
theorem not_cleared_append (hmutant : isMutant name = true) {t : Rat}
    (ht : t ∈ statistics log name) (hwithin : ¬ Crosses t) (more : List Line) :
    ¬ Cleared (log ++ more) name := by
  rintro ⟨-, hcleared⟩
  rw [hmutant] at hcleared
  exact hwithin (hcleared t (statistics_subset log more name ht))

/-! ## The gate -/

/-- Every bench that the log names is cleared, and it names one. -/
def Clean (log : List Line) : Prop := log ≠ [] ∧ ∀ name ∈ log.map Line.name, Cleared log name

theorem verdict_eq_nil_iff (log : List Line) : verdict log = [] ↔ Clean log := by
  have h := tallied log
  have horder : (tally log).order.length = 0 ↔ log = [] := by
    rw [List.length_eq_zero_iff, List.eq_nil_iff_forall_not_mem]
    simp only [h.order]
    rw [← List.eq_nil_iff_forall_not_mem, List.map_eq_nil_iff]
  rw [verdict, Tallies.findings, Clean]
  by_cases hempty : log = []
  · rw [if_pos (horder.mpr hempty)]
    simp [hempty]
  · rw [if_neg (horder.not.mpr hempty), List.filterMap_eq_nil_iff]
    simp only [h.order, h.finding?_eq_none_iff, hempty, ne_eq, not_false_eq_true, true_and]

/-- Both kinds of finding, at the first run. -/
example : verdict [⟨"aead_tag", 5, 10⟩, ⟨"mutant_secret_key_eq", 3, 10⟩] =
    [.leaks "aead_tag" 1, .blind "mutant_secret_key_eq" 1 1] := by decide +kernel

theorem gateFrom_eq_zero_iff (log : List Line) (runs : List (Except Failure (List Line))) :
    gateFrom log runs = 0 ↔ (runs = [] ∧ Clean log) ∨
      ∃ output outputs rest, runs = (output :: outputs).map Except.ok ++ rest ∧
        Clean (log ++ (output :: outputs).flatten) := by
  induction runs generalizing log with
  | nil =>
    rw [gateFrom]
    simp [verdict_eq_nil_iff]
  | cons run runs ih =>
    cases run with
    | error failure =>
      rw [gateFrom]
      simp [failure.property]
    | ok output =>
      have hcons : gateFrom log (.ok output :: runs) = 0 ↔
          Clean (log ++ output) ∨ gateFrom (log ++ output) runs = 0 := by
        rw [gateFrom, ← verdict_eq_nil_iff]
        split
        · next hclean => exact iff_of_true rfl (.inl hclean)
        · next hclean => exact (or_iff_right hclean).symm
      rw [hcons, ih]
      constructor
      · rintro (hclean | ⟨rfl, hclean⟩ | ⟨next, outputs, rest, rfl, hclean⟩)
        · exact .inr ⟨output, [], runs, rfl, by simpa using hclean⟩
        · exact .inr ⟨output, [], [], rfl, by simpa using hclean⟩
        · exact .inr ⟨output, next :: outputs, rest, rfl, by simpa using hclean⟩
      · rintro (⟨hnil, -⟩ | ⟨first, outputs, rest, heq, hclean⟩)
        · cases hnil
        · rw [List.map_cons, List.cons_append, List.cons.injEq, Except.ok.injEq] at heq
          obtain ⟨rfl, rfl⟩ := heq
          cases outputs with
          | nil => exact .inl (by simpa using hclean)
          | cons next outputs =>
            exact .inr (.inr ⟨next, outputs, rest, rfl, by simpa using hclean⟩)

theorem gate_eq_zero_iff (runs : List (Except Failure (List Line))) :
    gate runs = 0 ↔ ∃ (outputs : List (List Line)) (rest : List (Except Failure (List Line))),
      runs = outputs.map Except.ok ++ rest ∧ Clean outputs.flatten := by
  rw [gate, gateFrom_eq_zero_iff]
  constructor
  · rintro (⟨-, hclean⟩ | ⟨output, outputs, rest, heq, hclean⟩)
    · exact absurd rfl hclean.1
    · exact ⟨output :: outputs, rest, heq, hclean⟩
  · rintro ⟨outputs, rest, heq, hclean⟩
    cases outputs with
    | nil => exact absurd rfl hclean.1
    | cons output outputs => exact .inr ⟨output, outputs, rest, heq, hclean⟩

/-- The statistics of a bench over several runs are those of each run. -/
theorem mem_statistics_flatten {outputs : List (List Line)} {t : Rat} :
    t ∈ statistics outputs.flatten name ↔ ∃ output ∈ outputs, t ∈ statistics output name := by
  simp only [mem_statistics, List.mem_flatten]
  constructor
  · rintro ⟨line, ⟨output, houtput, hline⟩, hrest⟩
    exact ⟨output, houtput, line, hline, hrest⟩
  · rintro ⟨output, houtput, line, hline, hrest⟩
    exact ⟨line, ⟨output, houtput, hline⟩, hrest⟩

/-- A bench that the gate does not let pass: a mutant that stays within the threshold in the
    first run, and any other that crosses it on one side in all runs. -/
def Condemned (first : List Line) (runs : List (Except Failure (List Line))) (name : String) :
    Prop :=
  if isMutant name then ∃ t ∈ statistics first name, ¬ Crosses t
  else ∃ negative : Prop, ∀ output, .ok output ∈ runs → ∀ t ∈ statistics output name,
    Crosses t ∧ (t < 0 ↔ negative)

/-- The gate passes exactly when, after some of the runs of the benches, none of which failed,
    every bench that has reported is cleared by the runs that count so far.  More runs do not
    condemn a bench that is not a mutant, and no run makes the gate pass after a mutant has
    stayed within the threshold, or for a bench that crosses it on one side in all of them. -/
theorem constant_time_gate (runs : List (Except Failure (List Line))) :
    (gate runs = 0 ↔ ∃ (outputs : List (List Line)) (rest : List (Except Failure (List Line))),
      runs = outputs.map Except.ok ++ rest ∧ Clean outputs.flatten) ∧
    (∀ log more name, isMutant name = false → Cleared log name → Cleared (log ++ more) name) ∧
    ∀ first rest name, runs = .ok first :: rest → name ∈ first.map Line.name →
      Condemned first runs name → gate runs ≠ 0 := by
  refine ⟨gate_eq_zero_iff runs, fun log more name hreal h => h.append hreal more, ?_⟩
  intro first rest name hruns hname hcondemned hpass
  obtain ⟨outputs, after, heq, hclean⟩ := (gate_eq_zero_iff runs).mp hpass
  cases outputs with
  | nil => exact hclean.1 rfl
  | cons output outputs =>
    rw [hruns, List.map_cons, List.cons_append, List.cons.injEq, Except.ok.injEq] at heq
    obtain ⟨rfl, heq⟩ := heq
    rw [List.flatten_cons] at hclean
    have hcleared := hclean.2 name
      (by rw [List.map_append]; exact List.mem_append_left _ hname)
    cases hmutant : isMutant name with
    | true =>
      rw [Condemned, hmutant] at hcondemned
      obtain ⟨t, ht, hwithin⟩ := hcondemned
      exact not_cleared_append hmutant ht hwithin _ hcleared
    | false =>
      rw [Condemned, hmutant] at hcondemned
      obtain ⟨negative, hall⟩ := hcondemned
      have hone (t : Rat) (ht : t ∈ statistics (first ++ outputs.flatten) name) :
          Crosses t ∧ (t < 0 ↔ negative) := by
        rw [← List.flatten_cons, mem_statistics_flatten] at ht
        obtain ⟨output, houtput, ht⟩ := ht
        refine hall output ?_ t ht
        rw [hruns, heq, ← List.cons_append, ← List.map_cons]
        exact List.mem_append_left _ (List.mem_map_of_mem houtput)
      obtain ⟨-, hverdict⟩ := hcleared
      rw [hmutant] at hverdict
      rcases hverdict with ⟨t, ht, hwithin⟩ | ⟨t, ht, u, hu, hnegative, hpositive⟩
      · exact hwithin (hone t ht).1
      · exact hpositive ((hone u hu).2.mpr ((hone t ht).2.mp hnegative))

/-- A run of the benches, with the statistic of the mutant. -/
def exampleRun (t mutant : Rat) : List Line :=
  [⟨"aead_tag", t, 10⟩, ⟨"mutant_secret_key_eq", mutant, 10⟩]

/-- Noise that changes its sign passes at the second run, but not if the mutant stayed within
    the threshold in the first. -/
theorem constant_time_gate_noise :
    gate [.ok (exampleRun 5 (-1622)), .ok (exampleRun (-5) (-1600))] = 0 ∧
    gate [.ok (exampleRun 5 3), .ok (exampleRun (-5) (-1600))] ≠ 0 := by
  constructor
  · refine (constant_time_gate _).1.mpr
      ⟨[exampleRun 5 (-1622), exampleRun (-5) (-1600)], [], rfl, ?_⟩
    exact (verdict_eq_nil_iff _).mp (by decide +kernel)
  · refine (constant_time_gate _).2.2 _ _ "mutant_secret_key_eq" rfl (by decide) ?_
    exact ⟨3, by decide +kernel, by decide +kernel⟩

end Timing
end Quietwire
