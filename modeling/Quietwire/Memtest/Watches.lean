/-
  Quietwire.Memtest.Watches

  The program around the allocator: it starts and drops watches, reads their counts
  and frees blocks, in any order.  Each operation is atomic under the mutex.

  A watch is a bare index into the slots, so the program's view numbers the watches
  by their starts; a number is used once (`Program.Valid.fresh`).
-/
import Quietwire.Memtest.Requests
import Quietwire.Support.Machine
import Mathlib.Data.List.Nodup

namespace Quietwire
namespace Memtest

/-- The slots of the allocator, and the watches that are alive, each under the number of its
    start. -/
structure Program where
  slots : Slots
  watches : List (Nat × Watch)
  started : Nat

inductive Operation where
  | watch (request : Request)
  | unwipedFrees (id : Nat)
  | drop (id : Nat)
  | dealloc (block : FreedBlock)
  deriving DecidableEq, Repr

/-- The block that an operation frees. -/
def Operation.freed? : Operation → Option FreedBlock
  | .dealloc block => some block
  | _ => none

/-- How many of the blocks that the operations free still hold what was requested. -/
def Request.countIn (request : Request) (ops : List Operation) : Nat :=
  (ops.filterMap Operation.freed?).countP fun block => request.LeftIn block

theorem Request.countIn_cons (request : Request) (op : Operation) (ops : List Operation) :
    request.countIn (op :: ops) = request.countIn [op] + request.countIn ops := by
  rw [countIn, countIn, countIn, ← List.countP_append, ← List.filterMap_append,
    List.singleton_append]

theorem Request.countIn_dealloc (request : Request) (block : FreedBlock) :
    request.countIn [.dealloc block] = if request.LeftIn block then 1 else 0 := by
  rw [countIn, List.filterMap_cons, Operation.freed?]
  by_cases hleft : request.LeftIn block
  · simp [hleft]
  · simp [hleft]

inductive Outcome where
  | started (id : Nat)
  | refused (error : WatchError)
  | counted (count : UInt64)
  | done
  /-- The program has no such watch. -/
  | noWatch
  /-- A count has overflowed. -/
  | aborted
  deriving DecidableEq, Repr

namespace Program

def new : Program := ⟨ScanningAllocator.new, [], 0⟩

def step (p : Program) : Operation → Program × Outcome
  | .watch request =>
    match request.start p.slots with
    | .error error => (p, .refused error)
    | .ok (slots, watch) =>
      (⟨slots, (p.started, watch) :: p.watches, p.started + 1⟩, .started p.started)
  | .unwipedFrees id =>
    match p.watches.lookup id with
    -- without its handle a program cannot name the watch
    | none => (p, .noWatch)
    | some watch => (p, .counted (watch.unwipedFrees p.slots))
  | .drop id =>
    match p.watches.lookup id with
    | none => (p, .noWatch)
    | some watch =>
      ({ p with slots := watch.drop p.slots, watches := p.watches.filter (·.1 ≠ id) }, .done)
  | .dealloc block =>
    match ScanningAllocator.inspect p.slots block with
    | none => (p, .aborted)
    | some slots => ({ p with slots := slots }, .done)

/-- What an operation can do: every branch of `step`, with what it found. -/
inductive Transition (p : Program) : Operation → Program × Outcome → Prop where
  | started {request : Request} {slots : Slots} {watch : Watch}
      (hstart : request.start p.slots = .ok (slots, watch)) :
      Transition p (.watch request)
        (⟨slots, (p.started, watch) :: p.watches, p.started + 1⟩, .started p.started)
  | refused {request : Request} {error : WatchError}
      (hstart : request.start p.slots = .error error) :
      Transition p (.watch request) (p, .refused error)
  | counted {id : Nat} {watch : Watch} (hlookup : p.watches.lookup id = some watch) :
      Transition p (.unwipedFrees id) (p, .counted (watch.unwipedFrees p.slots))
  | dropped {id : Nat} {watch : Watch} (hlookup : p.watches.lookup id = some watch) :
      Transition p (.drop id)
        ({ p with slots := watch.drop p.slots, watches := p.watches.filter (·.1 ≠ id) }, .done)
  | freed {block : FreedBlock} {slots : Slots}
      (hinspect : ScanningAllocator.inspect p.slots block = some slots) :
      Transition p (.dealloc block) ({ p with slots := slots }, .done)
  | noWatch {op : Operation} (hfreed : op.freed? = none) : Transition p op (p, .noWatch)
  | aborted {block : FreedBlock} (hinspect : ScanningAllocator.inspect p.slots block = none) :
      Transition p (.dealloc block) (p, .aborted)

theorem step_transition (p : Program) (op : Operation) : Transition p op (p.step op) := by
  cases op with
  | watch request =>
    rw [step]
    cases hstart : request.start p.slots with
    | error error => exact .refused hstart
    | ok result => exact .started hstart
  | unwipedFrees id =>
    rw [step]
    cases hlookup : p.watches.lookup id with
    | none => exact .noWatch rfl
    | some watch => exact .counted hlookup
  | drop id =>
    rw [step]
    cases hlookup : p.watches.lookup id with
    | none => exact .noWatch rfl
    | some watch => exact .dropped hlookup
  | dealloc block =>
    rw [step]
    cases hinspect : ScanningAllocator.inspect p.slots block with
    | none => exact .aborted hinspect
    | some slots => exact .freed hinspect

/-- The states that a program reaches as long as no count overflows. -/
abbrev Reaches (p : Program) : Prop :=
  Machine.Reaches step (fun p op => (p.step op).2 ≠ .aborted) new p

/-- The watch of a start is alive. -/
def Live (p : Program) (id : Nat) : Prop := id ∈ p.watches.map Prod.fst

instance (p : Program) (id : Nat) : Decidable (p.Live id) :=
  inferInstanceAs (Decidable (id ∈ p.watches.map Prod.fst))

/-- The slots in use are those of the live watches, one for each; numbers of starts to come are
    not in use. -/
structure Valid (p : Program) : Prop where
  occupied : ∀ w ∈ p.watches, p.slots.get w.2.index ≠ none
  owned : ∀ i : Fin maxWatches, p.slots.get i ≠ none → i ∈ p.watches.map fun w => w.2.index
  distinct : (p.watches.map fun w => w.2.index).Nodup
  ids : (p.watches.map Prod.fst).Nodup
  fresh : ∀ w ∈ p.watches, w.1 < p.started
  served : ∀ (i : Fin maxWatches) slot, p.slots.get i = some slot →
    ∃ request : Request, request.Served slot.target

/-- The watch `id` looks for `request`, and has counted `n` blocks. -/
def Counts (p : Program) (id : Nat) (request : Request) (n : Nat) : Prop :=
  ∃ watch slot, (id, watch) ∈ p.watches ∧ p.slots.get watch.index = some slot ∧
    request.Served slot.target ∧ slot.unwipedFrees.toNat = n

/-! ## Every operation keeps the slots and the live watches in step -/

variable {p : Program} {id : Nat} {watch : Watch} {request : Request} {n : Nat}

theorem Valid.new : Valid new where
  occupied w hw := by cases hw
  owned i hi := by
    refine absurd ?_ hi
    exact Vector.getElem_replicate i.isLt
  distinct := List.nodup_nil
  ids := List.nodup_nil
  fresh w hw := by cases hw
  served i slot hslot := by
    have hnone : Program.new.slots.get i = none := Vector.getElem_replicate i.isLt
    rw [hnone] at hslot
    cases hslot

/-- The watch with a number. -/
theorem Valid.lookup_eq_some_iff (h : p.Valid) :
    p.watches.lookup id = some watch ↔ (id, watch) ∈ p.watches := by
  constructor
  · intro hlookup
    obtain ⟨before, after, heq, -⟩ := List.lookup_eq_some_iff.mp hlookup
    rw [heq]
    exact List.mem_append_right _ List.mem_cons_self
  · intro hmem
    cases hlookup : p.watches.lookup id with
    | none =>
      have hnone := List.lookup_eq_none_iff.mp hlookup _ hmem
      simp at hnone
    | some watch' =>
      obtain ⟨before, after, heq, -⟩ := List.lookup_eq_some_iff.mp hlookup
      have hmem' : (id, watch') ∈ p.watches := by
        rw [heq]
        exact List.mem_append_right _ List.mem_cons_self
      have hsame := List.inj_on_of_nodup_map h.ids hmem hmem' rfl
      cases hsame
      rfl

/-- Two live watches do not share a slot. -/
theorem Valid.eq_of_index (h : p.Valid) {w w' : Nat × Watch} (hw : w ∈ p.watches)
    (hw' : w' ∈ p.watches) (hindex : w.2.index = w'.2.index) : w = w' :=
  List.inj_on_of_nodup_map h.distinct hw hw' hindex

section Watching

variable {slots : Slots} (h : p.Valid) (hstart : request.start p.slots = .ok (slots, watch))

include h hstart

/-- The slot of a watch that starts belongs to no other watch. -/
theorem Valid.index_ne_of_start {w : Nat × Watch} (hw : w ∈ p.watches) :
    watch.index ≠ w.2.index := by
  obtain ⟨hfree, -⟩ := Request.start_eq_ok hstart
  intro heq
  have hsame : p.slots.get watch.index = p.slots.get w.2.index :=
    congrArg (fun i : Fin maxWatches => p.slots.get i) heq
  exact h.occupied w hw (hsame.symm.trans hfree)

theorem Valid.start :
    Valid ⟨slots, (p.started, watch) :: p.watches, p.started + 1⟩ := by
  obtain ⟨-, target, hserved, rfl⟩ := Request.start_eq_ok hstart
  refine ⟨fun w hw => ?_, fun i hi => ?_, ?_, ?_, fun w hw => ?_, fun i slot hslot => ?_⟩
  -- the new watch owns the slot that was free, and the others keep theirs
  · rcases List.mem_cons.mp hw with rfl | hw
    · rw [get_put_self]
      exact Option.some_ne_none _
    · rw [get_put_of_ne _ _ (h.index_ne_of_start hstart hw)]
      exact h.occupied w hw
  · rw [List.map_cons, List.mem_cons]
    by_cases heq : watch.index = i
    · exact .inl heq.symm
    · rw [get_put_of_ne _ _ heq] at hi
      exact .inr (h.owned i hi)
  · rw [List.map_cons, List.nodup_cons]
    refine ⟨fun hmem => ?_, h.distinct⟩
    obtain ⟨w, hw, heq⟩ := List.mem_map.mp hmem
    exact h.index_ne_of_start hstart hw heq.symm
  · rw [List.map_cons, List.nodup_cons]
    refine ⟨fun hmem => ?_, h.ids⟩
    obtain ⟨w, hw, heq⟩ := List.mem_map.mp hmem
    exact Nat.lt_irrefl _ (heq ▸ h.fresh w hw)
  · rcases List.mem_cons.mp hw with rfl | hw
    · exact Nat.lt_succ_self _
    · exact Nat.lt_succ_of_lt (h.fresh w hw)
  · by_cases heq : watch.index = i
    · subst heq
      rw [get_put_self] at hslot
      obtain rfl := Option.some.inj hslot
      exact ⟨request, hserved⟩
    · rw [get_put_of_ne _ _ heq] at hslot
      exact h.served i slot hslot

end Watching

theorem Valid.drop (h : p.Valid) (hmem : (id, watch) ∈ p.watches) :
    Valid { p with slots := watch.drop p.slots, watches := p.watches.filter (·.1 ≠ id) } := by
  have hsublist : (p.watches.filter (·.1 ≠ id)).Sublist p.watches := List.filter_sublist
  refine ⟨fun w hw => ?_, fun i hi => ?_, h.distinct.sublist (hsublist.map _),
    h.ids.sublist (hsublist.map _), fun w hw => h.fresh w (hsublist.mem hw),
    fun i slot hslot => ?_⟩
  · obtain ⟨hw, hne⟩ := List.mem_filter.mp hw
    have hindex : watch.index ≠ w.2.index := by
      intro heq
      have hsame := h.eq_of_index hmem hw heq
      rw [← hsame] at hne
      simp at hne
    rw [Watch.drop, get_put_of_ne _ _ hindex]
    exact h.occupied w hw
  · rw [Watch.drop] at hi
    by_cases heq : watch.index = i
    · subst heq
      rw [get_put_self] at hi
      exact absurd rfl hi
    · rw [get_put_of_ne _ _ heq] at hi
      obtain ⟨w, hw, rfl⟩ := List.mem_map.mp (h.owned i hi)
      refine List.mem_map.mpr ⟨w, List.mem_filter.mpr ⟨hw, ?_⟩, rfl⟩
      rw [decide_eq_true_iff]
      rintro rfl
      -- the watch that was dropped is the one with this number
      have hsame := List.inj_on_of_nodup_map h.ids hmem hw rfl
      exact heq (congrArg (fun w => w.2.index) hsame)
  · rw [Watch.drop] at hslot
    by_cases heq : watch.index = i
    · subst heq
      rw [get_put_self] at hslot
      cases hslot
    · rw [get_put_of_ne _ _ heq] at hslot
      exact h.served i slot hslot

theorem Valid.dealloc (h : p.Valid) {block : FreedBlock} {slots : Slots}
    (hinspect : ScanningAllocator.inspect p.slots block = some slots) :
    Valid { p with slots := slots } := by
  refine ⟨fun w hw => ?_, fun i hi => h.owned i fun hnone => hi ?_, h.distinct, h.ids, h.fresh,
    fun i slot' hslot' => ?_⟩
  · obtain ⟨slot, hslot⟩ := Option.ne_none_iff_exists'.mp (h.occupied w hw)
    obtain ⟨slot', hslot', -⟩ := ScanningAllocator.inspect_eq_some_of_some hinspect hslot
    show slots.get w.2.index ≠ none
    rw [hslot']
    exact Option.some_ne_none _
  · exact ScanningAllocator.inspect_eq_some_of_none hinspect hnone
  · cases hslot : p.slots.get i with
    | none =>
      have hnone := ScanningAllocator.inspect_eq_some_of_none hinspect hslot
      cases hnone.symm.trans hslot'
    | some slot =>
      obtain ⟨slot'', heq, hinspected⟩ := ScanningAllocator.inspect_eq_some_of_some hinspect hslot
      obtain rfl := Option.some.inj (heq.symm.trans hslot')
      rw [(Slot.inspect_eq_some hinspected).1]
      exact h.served i slot hslot

/-- The invariant, over one operation. -/
theorem Valid.step (h : p.Valid) (op : Operation) : (p.step op).1.Valid := by
  have htransition := p.step_transition op
  generalize p.step op = result at htransition
  cases htransition with
  | started hstart => exact h.start hstart
  | dropped hlookup => exact h.drop (h.lookup_eq_some_iff.mp hlookup)
  | freed hinspect => exact h.dealloc hinspect
  | refused => exact h
  | counted => exact h
  | noWatch => exact h
  | aborted => exact h

theorem Valid.run (h : p.Valid) (ops : List Operation) :
    (Machine.run Program.step p ops).1.Valid := by
  induction ops generalizing p with
  | nil => exact h
  | cons op ops ih => exact ih (h.step op)

/-- The invariant, over a program. -/
theorem Reaches.valid (h : p.Reaches) : p.Valid :=
  Machine.Reaches.invariant (fun _ op hvalid _ => hvalid.step op) h Valid.new

/-- Sixteen watches are alive where every slot is in use. -/
theorem Valid.length_eq_iff (h : p.Valid) :
    p.watches.length = maxWatches ↔ ∀ i : Fin maxWatches, p.slots.get i ≠ none := by
  -- the slots in use are as many as the live watches
  have hlength : (p.watches.map fun w => w.2.index).length = p.watches.length := List.length_map _
  constructor
  · intro hall i
    have huniv : (p.watches.map fun w => w.2.index).toFinset = Finset.univ := by
      refine Finset.eq_univ_of_card _ ?_
      rw [List.toFinset_card_of_nodup h.distinct, hlength, hall, Fintype.card_fin]
    have hmem : i ∈ (p.watches.map fun w => w.2.index).toFinset := by
      rw [huniv]
      exact Finset.mem_univ i
    obtain ⟨w, hw, rfl⟩ := List.mem_map.mp (List.mem_toFinset.mp hmem)
    exact h.occupied w hw
  · intro hfull
    have huniv : (p.watches.map fun w => w.2.index).toFinset = Finset.univ :=
      Finset.eq_univ_iff_forall.mpr fun i => List.mem_toFinset.mpr (h.owned i (hfull i))
    rw [← hlength, ← List.toFinset_card_of_nodup h.distinct, huniv, Finset.card_univ,
      Fintype.card_fin]

/-! ## What a live watch has counted -/

/-- The numbers of starts grow. -/
theorem started_le_step (p : Program) (op : Operation) : p.started ≤ (p.step op).1.started := by
  have htransition := p.step_transition op
  generalize p.step op = result at htransition
  cases htransition with
  | started => exact Nat.le_succ _
  | refused => exact Nat.le_refl _
  | counted => exact Nat.le_refl _
  | dropped => exact Nat.le_refl _
  | freed => exact Nat.le_refl _
  | noWatch => exact Nat.le_refl _
  | aborted => exact Nat.le_refl _

/-- A watch that is alive later is alive now, if it was started before. -/
theorem Live.of_step {op : Operation} (hlive : (p.step op).1.Live id) (hid : id < p.started) :
    p.Live id := by
  have htransition := p.step_transition op
  generalize p.step op = result at htransition hlive
  cases htransition with
  | started hstart =>
    rcases List.mem_cons.mp hlive with rfl | hlive
    · exact absurd hid (Nat.lt_irrefl _)
    · exact hlive
  | dropped hlookup => exact (List.filter_sublist.map _).mem hlive
  | freed hinspect => exact hlive
  | refused => exact hlive
  | counted => exact hlive
  | noWatch => exact hlive
  | aborted => exact hlive

theorem Live.of_run {ops : List Operation} (hlive : (Machine.run step p ops).1.Live id)
    (hid : id < p.started) : p.Live id := by
  induction ops generalizing p with
  | nil => exact hlive
  | cons op ops ih => exact Live.of_step (ih hlive (hid.trans_le (started_le_step p op))) hid

/-- A watch that starts has counted nothing. -/
theorem Counts.start {slots : Slots} (hstart : request.start p.slots = .ok (slots, watch)) :
    Counts ⟨slots, (p.started, watch) :: p.watches, p.started + 1⟩ p.started request 0 := by
  obtain ⟨-, target, hserved, rfl⟩ := Request.start_eq_ok hstart
  exact ⟨watch, ⟨target, 0⟩, List.mem_cons_self, get_put_self _ _ _, hserved, rfl⟩

theorem Counts.lt_started (h : p.Counts id request n) (hvalid : p.Valid) : id < p.started := by
  obtain ⟨watch, slot, hmem, -⟩ := h
  exact hvalid.fresh _ hmem

/-- One operation adds to the count of a live watch what it frees with the secret in it. -/
theorem Counts.step (hvalid : p.Valid) (h : p.Counts id request n) {op : Operation}
    (hlive : (p.step op).1.Live id) (hrun : (p.step op).2 ≠ .aborted) :
    (p.step op).1.Counts id request (n + request.countIn [op]) := by
  obtain ⟨watch, slot, hmem, hslot, hserved, hcount⟩ := h
  have htransition := p.step_transition op
  generalize p.step op = result at htransition hlive hrun
  cases htransition with
  | started hstart =>
    -- a start takes another slot
    have hindex := hvalid.index_ne_of_start hstart hmem
    obtain ⟨-, target, -, rfl⟩ := Request.start_eq_ok hstart
    refine ⟨watch, slot, List.mem_cons_of_mem _ hmem, ?_, hserved, hcount⟩
    rw [get_put_of_ne _ _ hindex]
    exact hslot
  | @dropped id' watch' hlookup =>
    -- the watch is alive after the drop, so it is not the one dropped
    have hmem' := hvalid.lookup_eq_some_iff.mp hlookup
    have hne : id ≠ id' := by
      rintro rfl
      obtain ⟨w, hw, heq⟩ := List.mem_map.mp hlive
      have hkept := (List.mem_filter.mp hw).2
      rw [heq] at hkept
      simp at hkept
    have hindex : watch'.index ≠ watch.index := by
      intro heq
      have hsame := hvalid.eq_of_index hmem' hmem heq
      exact hne (congrArg Prod.fst hsame).symm
    refine ⟨watch, slot, List.mem_filter.mpr ⟨hmem, by simpa using hne⟩, ?_, hserved, hcount⟩
    rw [Watch.drop, get_put_of_ne _ _ hindex]
    exact hslot
  | @freed block slots hinspect =>
    -- the slot is inspected once, and its target is the one requested
    obtain ⟨slot', hslot', hinspect'⟩ := ScanningAllocator.inspect_eq_some_of_some hinspect hslot
    obtain ⟨htarget, hadded⟩ := Slot.inspect_eq_some hinspect'
    refine ⟨watch, slot', hmem, hslot', htarget.symm ▸ hserved, ?_⟩
    rw [hadded, hcount, Request.countIn_dealloc]
    simp only [hserved.isLeftIn]
  | refused => exact ⟨watch, slot, hmem, hslot, hserved, hcount⟩
  | counted => exact ⟨watch, slot, hmem, hslot, hserved, hcount⟩
  | noWatch hfreed =>
    refine ⟨watch, slot, hmem, hslot, hserved, ?_⟩
    rw [Request.countIn, List.filterMap_cons, hfreed, hcount]
    rfl
  | aborted => exact absurd rfl hrun

/-- A live watch has counted the blocks freed since. -/
theorem Counts.run (hvalid : p.Valid) (h : p.Counts id request n) {ops : List Operation}
    (hrun : .aborted ∉ (Machine.run Program.step p ops).2)
    (hlive : (Machine.run Program.step p ops).1.Live id) :
    (Machine.run Program.step p ops).1.Counts id request (n + request.countIn ops) := by
  induction ops generalizing p n with
  | nil => exact h
  | cons op ops ih =>
    rw [Machine.run, List.mem_cons, not_or] at hrun
    -- alive at the end, so alive all along
    have hid := (h.lt_started hvalid).trans_le (started_le_step p op)
    have hmiddle : (p.step op).1.Live id := Live.of_run hlive hid
    have hstep := Counts.step hvalid h hmiddle (Ne.symm hrun.1)
    rw [Request.countIn_cons, ← Nat.add_assoc]
    exact ih (hvalid.step op) hstep hrun.2 hlive

/-- The count that a live watch reports. -/
theorem Counts.reported (hvalid : p.Valid) (h : p.Counts id request n) :
    ∃ count, (p.step (.unwipedFrees id)).2 = .counted count ∧ count.toNat = n := by
  obtain ⟨watch, slot, hmem, hslot, -, hcount⟩ := h
  refine ⟨slot.unwipedFrees, ?_, hcount⟩
  rw [Program.step, hvalid.lookup_eq_some_iff.mpr hmem]
  show Outcome.counted (watch.unwipedFrees p.slots) = _
  rw [Watch.unwipedFrees, hslot]

/-- A request is refused where it cannot be started. -/
theorem refused_iff {request : Request} {error : WatchError} :
    (p.step (.watch request)).2 = .refused error ↔ request.start p.slots = .error error := by
  rw [Program.step]
  cases hstart : request.start p.slots with
  | error error => simp
  | ok result => simp

/-- The requests that are refused because no slot is free. -/
theorem Valid.refused_full_iff (hvalid : p.Valid) (request : Request) :
    (p.step (.watch request)).2 = .refused .full ↔
      request.Valid ∧ p.watches.length = maxWatches := by
  rw [hvalid.length_eq_iff, refused_iff, Request.start_eq_error_iff]
  simp

/-- The requests that are refused for what they are. -/
theorem refused_invalidPattern_iff (request : Request) :
    (p.step (.watch request)).2 = .refused .invalidPattern ↔ ¬ request.Valid := by
  rw [refused_iff, Request.start_eq_error_iff]
  simp

/-- All others start a watch. -/
theorem Valid.started_iff (hvalid : p.Valid) (request : Request) :
    (∃ id, (p.step (.watch request)).2 = .started id) ↔
      request.Valid ∧ p.watches.length ≠ maxWatches := by
  have hfull := hvalid.refused_full_iff request
  have hinvalid := p.refused_invalidPattern_iff request
  cases hstart : request.start p.slots with
  | ok result =>
    have houtcome : (p.step (.watch request)).2 = .started p.started := by
      rw [Program.step, hstart]
    rw [houtcome] at hfull hinvalid
    have hrequest : request.Valid := by
      by_contra hnot
      cases hinvalid.mpr hnot
    refine iff_of_true ⟨_, houtcome⟩ ⟨hrequest, fun hlen => ?_⟩
    cases hfull.mpr ⟨hrequest, hlen⟩
  | error error =>
    have houtcome := (refused_iff (p := p)).mpr hstart
    rw [houtcome] at hfull hinvalid ⊢
    refine iff_of_false (by rintro ⟨id, hid⟩; cases hid) fun ⟨hrequest, hlen⟩ => ?_
    cases error with
    | invalidPattern => exact hinvalid.mp rfl hrequest
    | full => exact hlen (hfull.mp rfl).2

/-- A wiped block changes nothing. -/
theorem Valid.step_wiped (hvalid : p.Valid) {block : FreedBlock}
    (hwiped : ∀ b ∈ block.bytes, b = 0) : p.step (.dealloc block) = (p, .done) := by
  -- no slot's target is left in a wiped block
  have hslot : ∀ (i : Fin maxWatches) slot, p.slots.get i = some slot →
      slot.inspect block = some slot := by
    intro i slot hslot
    obtain ⟨request, hserved⟩ := hvalid.served i slot hslot
    rw [Slot.inspect, hserved.isLeftIn_of_isAllZero (FreedBlock.isAllZero_iff.mpr hwiped)]
    exact if_neg Bool.false_ne_true
  rw [Program.step]
  cases hinspect : ScanningAllocator.inspect p.slots block with
  | none =>
    obtain ⟨i, slot, hsome, hnone⟩ := ScanningAllocator.inspect_eq_none hinspect
    rw [hslot i slot hsome] at hnone
    cases hnone
  | some slots =>
    have hsame : slots = p.slots := by
      apply Vector.ext
      intro i hi
      show slots.get (⟨i, hi⟩ : Fin maxWatches) = p.slots.get (⟨i, hi⟩ : Fin maxWatches)
      cases hold : p.slots.get (⟨i, hi⟩ : Fin maxWatches) with
      | none => exact ScanningAllocator.inspect_eq_some_of_none hinspect hold
      | some slot =>
        obtain ⟨slot', heq, hinspected⟩ :=
          ScanningAllocator.inspect_eq_some_of_some hinspect hold
        rw [hslot _ slot hold] at hinspected
        obtain rfl := Option.some.inj hinspected
        exact heq
    rw [hsame]

/-- A free aborts only where a live watch reports a count that is at the limit. -/
theorem Valid.exists_of_aborted (hvalid : p.Valid) {block : FreedBlock}
    (haborted : (p.step (.dealloc block)).2 = .aborted) :
    ∃ id, p.Live id ∧ ∃ count, (p.step (.unwipedFrees id)).2 = .counted count ∧
      count.toNat = 2 ^ 64 - 1 := by
  rw [Program.step] at haborted
  cases hinspect : ScanningAllocator.inspect p.slots block with
  | none =>
    -- the slot that overflows belongs to a live watch
    obtain ⟨i, slot, hsome, hnone⟩ := ScanningAllocator.inspect_eq_none hinspect
    obtain ⟨request, hserved⟩ := hvalid.served i slot hsome
    obtain ⟨w, hw, rfl⟩ := List.mem_map.mp
      (hvalid.owned i (by rw [hsome]; exact Option.some_ne_none _))
    have hcounts : p.Counts w.1 request (2 ^ 64 - 1) :=
      ⟨w.2, slot, hw, hsome, hserved, Slot.inspect_eq_none hnone⟩
    exact ⟨w.1, List.mem_map_of_mem hw, hcounts.reported hvalid⟩
  | some slots =>
    rw [hinspect] at haborted
    cases haborted

end Program

/-- The leak scanner counts exactly.  In every state that a program reaches: a start fails
    with `InvalidPattern` exactly when the secret is invalid, with `Full` exactly when it is
    valid and sixteen watches are alive, and else it starts a watch; a watch that is started
    there reports, as long as it is alive and whatever operations come between, the number of
    blocks freed since that still held what it looks for; a wiped block changes nothing; and a
    free aborts only where a count is at the limit of a `usize`. -/
theorem scanner_counts_exactly {p : Program} (hreaches : p.Reaches) :
    (∀ request : Request, ((p.step (.watch request)).2 = .refused .invalidPattern ↔
        ¬ request.Valid) ∧
      ((∃ id, (p.step (.watch request)).2 = .started id) ↔
        request.Valid ∧ p.watches.length ≠ maxWatches)) ∧
    (∀ request : Request, (p.step (.watch request)).2 = .refused .full ↔
      request.Valid ∧ p.watches.length = maxWatches) ∧
    (∀ (request : Request) (id : Nat), (p.step (.watch request)).2 = .started id →
      ∀ (ops : List Operation) (q : Program) (outcomes : List Outcome),
        Machine.run Program.step (p.step (.watch request)).1 ops = (q, outcomes) →
        .aborted ∉ outcomes → q.Live id →
        ∃ count, (q.step (.unwipedFrees id)).2 = .counted count ∧
          count.toNat = (ops.filterMap Operation.freed?).countP fun block =>
            request.LeftIn block) ∧
    (∀ block : FreedBlock, (∀ b ∈ block.bytes, b = 0) → p.step (.dealloc block) = (p, .done)) ∧
    ∀ block : FreedBlock, (p.step (.dealloc block)).2 = .aborted →
      ∃ id, p.Live id ∧ ∃ count, (p.step (.unwipedFrees id)).2 = .counted count ∧
        count.toNat = 2 ^ 64 - 1 := by
  have hvalid := hreaches.valid
  refine ⟨fun request => ⟨p.refused_invalidPattern_iff request, hvalid.started_iff request⟩,
    hvalid.refused_full_iff, ?_, fun block => hvalid.step_wiped,
    fun block => hvalid.exists_of_aborted⟩
  intro request id hstarted ops q outcomes hops hrun hlive
  have hafter := hvalid.step (.watch request)
  -- the watch starts with nothing counted
  have hcounts : (p.step (.watch request)).1.Counts id request 0 := by
    rw [Program.step] at hstarted ⊢
    cases hstart : request.start p.slots with
    | error error =>
      rw [hstart] at hstarted
      cases hstarted
    | ok result =>
      rw [hstart] at hstarted
      cases hstarted
      exact Program.Counts.start hstart
  have hcounted := hcounts.run hafter (by rw [hops]; exact hrun) (by rw [hops]; exact hlive)
  have hthen := hafter.run ops
  rw [hops] at hcounted hthen
  rw [Nat.zero_add] at hcounted
  exact hcounted.reported hthen

/-- A secret that overlaps itself, at the end of the first block and in none of the others;
    another watch comes and goes. -/
theorem scanner_counts_exactly_overlapping : ∃ count : UInt64,
    ((Machine.run Program.step (Program.new.step (.watch (.bytes [1, 1, 2]))).1
      [.dealloc ⟨[1, 1, 1, 2]⟩, .watch (.blocksOfSize 2), .dealloc ⟨[1, 1]⟩, .drop 1,
        .dealloc ⟨[0, 0, 0]⟩]).1.step (.unwipedFrees 0)).2 = .counted count ∧
    count.toNat = 1 := by
  obtain ⟨-, -, hcounts, -⟩ := scanner_counts_exactly (p := .new) .refl
  obtain ⟨count, hcounted, hcount⟩ := hcounts (.bytes [1, 1, 2]) 0 (by decide +kernel)
    [.dealloc ⟨[1, 1, 1, 2]⟩, .watch (.blocksOfSize 2), .dealloc ⟨[1, 1]⟩, .drop 1,
      .dealloc ⟨[0, 0, 0]⟩] _ _ rfl (by decide +kernel) (by decide +kernel)
  exact ⟨count, hcounted, hcount.trans (by decide)⟩

end Memtest
end Quietwire
