/-
  Quietwire.Ratchet.Outstanding

  The frames that a party has not opened, and the stored keys that can belong to
  them.
-/
import Quietwire.Ratchet.Reachable
import Mathlib.Data.List.Perm.Subperm

namespace Quietwire

variable {α σ : Type} [DecidableEq α] [Octet α] {P : Primitives α σ} {sharedKey : SecretKey α}
  {naming : Naming}

namespace World

omit [Octet α] in
/-- The frames that the peer of `x` sealed and `x` has not opened: in flight or lost, over
    all chains. -/
def unopened (w : World α σ) (x : Party) : List (Sealing α) :=
  w.sealings.filter fun s => s.sender = x.peer ∧ s.sealed ∉ (w.openedBy x).map Opening.sealed

omit [Octet α] in
/-- The frames outstanding besides `t`. -/
def others (w : World α σ) (x : Party) (t : Sealing α) : List (Sealing α) :=
  (w.unopened x).filter fun s => s.sealed ≠ t.sealed

variable {w : World α σ} {x : Party} {t : Sealing α}

omit [Octet α] in
theorem mem_unopened {s : Sealing α} : s ∈ w.unopened x ↔
    s ∈ w.sealings ∧ s.sender = x.peer ∧ s.sealed ∉ (w.openedBy x).map Opening.sealed := by
  rw [unopened, List.mem_filter, decide_eq_true_iff]

omit [Octet α] in
theorem mem_others {s : Sealing α} :
    s ∈ w.others x t ↔ s ∈ w.unopened x ∧ s.sealed ≠ t.sealed := by
  rw [others, List.mem_filter, decide_eq_true_iff]

section Opening

variable {v : World α σ} {o : Opening α} (hlog : v.log = .opened o :: w.log)
include hlog

omit [DecidableEq α] [Octet α] in
theorem sealings_of_opened : v.sealings = w.sealings := by
  rw [World.sealings, World.sealings, hlog]
  rfl

omit [DecidableEq α] [Octet α] in
theorem openedBy_of_opened (y : Party) :
    v.openedBy y = if y = o.receiver then o :: w.openedBy y else w.openedBy y := by
  rw [openedBy, hlog, openedBy]
  rcases o.receiver.eq_or_eq_peer y with rfl | rfl
  · simp [Record.opening?]
  · simp [Record.opening?]

omit [Octet α] in
/-- A frame that was opened is not outstanding any more, and all others still are. -/
theorem mem_unopened_of_opened (y : Party) {s : Sealing α} :
    s ∈ v.unopened y ↔ s ∈ w.unopened y ∧ (y = o.receiver → s.sealed ≠ o.sealed) := by
  rw [mem_unopened, mem_unopened, sealings_of_opened hlog, openedBy_of_opened hlog]
  by_cases hy : y = o.receiver
  · rw [if_pos hy, List.map_cons, List.mem_cons, not_or]
    constructor
    · rintro ⟨hmem, hsender, hne, hnot⟩
      exact ⟨⟨hmem, hsender, hnot⟩, fun _ => hne⟩
    · rintro ⟨⟨hmem, hsender, hnot⟩, hne⟩
      exact ⟨hmem, hsender, hne hy, hnot⟩
  · rw [if_neg hy]
    exact (and_iff_left fun h => absurd h hy).symm

end Opening

omit [DecidableEq α] in
/-- Frames with the same bytes have the same label. -/
theorem label_eq_of_sealed {s : Sealing α} {o : Opening α} (hsealed : s.sealed = o.sealed) :
    Naming.byLabel.ofSealing s = Naming.byLabel.ofOpening o := by
  rw [Naming.ofSealing, Naming.ofOpening, Sealing.header, hsealed]

/-- A frame whose label was not opened was not opened. -/
theorem mem_unopened_of_label {s : Sealing α} (hs : s ∈ w.sealings) (hsender : s.sender = x.peer)
    (hlabel : Naming.byLabel.ofSealing s ∉ w.openedNames .byLabel x) : s ∈ w.unopened x := by
  refine mem_unopened.mpr ⟨hs, hsender, fun hmem => hlabel ?_⟩
  obtain ⟨o, ho, hsealed⟩ := List.mem_map.mp hmem
  rw [label_eq_of_sealed hsealed.symm]
  exact List.mem_map_of_mem ho

/-- The label of a frame that was not opened was not opened. -/
theorem Lockstep.label_unopened (h : Lockstep P sharedKey .byLabel w)
    (distinct : Naming.byLabel.Distinct w) {s : Sealing α} (hs : s ∈ w.unopened x) :
    Naming.byLabel.ofSealing s ∉ w.openedNames .byLabel x := by
  obtain ⟨hmem, hsender, hunopened⟩ := mem_unopened.mp hs
  intro hname
  obtain ⟨o, ho, hlabel⟩ := List.mem_map.mp hname
  obtain ⟨t, ht, htSender, htKey, htSealed, -⟩ := h.opened x o ho
  have hts : t = s := distinct t ht s hmem (htSender.trans hsender.symm)
    ((Naming.byLabel.ofSealing_eq_ofOpening htKey htSealed).trans hlabel)
  rw [← hts, htSealed] at hunopened
  exact hunopened (List.mem_map_of_mem ho)

section Opened

variable (h : Lockstep P sharedKey naming w) (hdistinct : (w.ratchets.map (publicKey P)).Nodup)
  {s : Sealing α} (hs : s ∈ w.sealings) (hsender : s.sender = x.peer)

include h hdistinct hs hsender

omit [DecidableEq α] in
/-- An opened frame has been passed, and its name is among the names opened. -/
theorem Lockstep.passed_of_opened (hopened : s.sealed ∈ (w.openedBy x).map Opening.sealed) :
    w.Passed x s ∧ naming.ofSealing s ∈ w.openedNames naming x := by
  obtain ⟨o, ho, hsealed⟩ := List.mem_map.mp hopened
  obtain ⟨t, ht, htSender, htKey, htSealed, -, hpassed⟩ := h.opened x o ho
  -- frames with the same bytes are the same frame
  obtain rfl := (h.distinct_byLabel hdistinct).eq_of_sealed ht hs (htSender.trans hsender.symm)
    (htSealed.trans hsealed)
  rw [naming.ofSealing_eq_ofOpening htKey htSealed]
  exact ⟨hpassed, List.mem_map_of_mem ho⟩

/-- A frame whose name was not opened was not opened. -/
theorem Lockstep.mem_unopened_of_name (hname : naming.ofSealing s ∉ w.openedNames naming x) :
    s ∈ w.unopened x :=
  mem_unopened.mpr ⟨hs, hsender, fun hopened =>
    hname (h.passed_of_opened hdistinct hs hsender hopened).2⟩

end Opened

/-- With distinct ratchet keys, frames are told apart by their labels as well as by any other
    name. -/
theorem Lockstep.byLabel (h : Lockstep P sharedKey naming w)
    (hdistinct : (w.ratchets.map (publicKey P)).Nodup) : Lockstep P sharedKey .byLabel w where
  turn := h.turn
  drawn := h.drawn
  contributory := h.contributory
  synced := h.synced
  genuine := h.genuine
  numbered := h.numbered
  opened := h.opened
  openedOnce y := by
    refine List.Nodup.map_on (fun o ho o' ho' hlabel => ?_) (List.Nodup.of_map _ (h.openedOnce y))
    obtain ⟨s, hs, hsSender, hsKey, hsSealed, -⟩ := h.opened y o ho
    -- two openings of one label are of one frame, so they have one name as well
    obtain ⟨s', hs', hsSender', hsKey', hsSealed', -⟩ := h.opened y o' ho'
    have hsame : s = s' := h.distinct_byLabel hdistinct s hs s' hs'
      (hsSender.trans hsSender'.symm) (by
        rw [Naming.byLabel.ofSealing_eq_ofOpening hsKey hsSealed, hlabel,
          Naming.byLabel.ofSealing_eq_ofOpening hsKey' hsSealed'])
    subst hsame
    apply List.inj_on_of_nodup_map (h.openedOnce y) ho ho'
    rw [← naming.ofSealing_eq_ofOpening hsKey hsSealed,
      naming.ofSealing_eq_ofOpening hsKey' hsSealed']
  stored y e he := by
    obtain ⟨s, hstored, hpassed, hunopened⟩ := h.stored y e he
    refine ⟨s, hstored, hpassed, fun hlabel => ?_⟩
    -- no opening has the name of the stored frame, so none is of that frame
    rw [← hstored.name_eq naming] at hunopened
    obtain ⟨hmem, hsender, hnot⟩ := mem_unopened.mp
      (h.mem_unopened_of_name hdistinct hstored.1 hstored.2.1 hunopened)
    obtain ⟨o, ho, heq⟩ := List.mem_map.mp hlabel
    obtain ⟨t, ht, htSender, htKey, htSealed, -⟩ := h.opened y o ho
    have hsame : t = s := h.distinct_byLabel hdistinct t ht s hmem
      (htSender.trans hsender.symm) (by
        rw [Naming.byLabel.ofSealing_eq_ofOpening htKey htSealed, heq, hstored.name_eq .byLabel])
    rw [← hsame, htSealed] at hnot
    exact hnot (List.mem_map_of_mem ho)
  storedOnce y := by
    refine List.Nodup.map_on (fun e he e' he' hlabel => ?_) (List.Nodup.of_map _ (h.storedOnce y))
    obtain ⟨s, hstored, -⟩ := h.stored y e he
    obtain ⟨s', hstored', -⟩ := h.stored y e' he'
    -- likewise for two entries of one label
    have hsame : s = s' := h.distinct_byLabel hdistinct s hstored.1 s' hstored'.1
      (hstored.2.1.trans hstored'.2.1.symm) (by
        rw [hstored.name_eq .byLabel, hlabel, hstored'.name_eq .byLabel])
    subst hsame
    apply List.inj_on_of_nodup_map (h.storedOnce y) he he'
    rw [← hstored.name_eq naming, hstored'.name_eq naming]

/-- The frame `s` of the peer can still be opened: the receiving chain has not passed it, or
    has left its key in the store. -/
def Kept (w : World α σ) (x : Party) (s : Sealing α) : Prop :=
  w.Passed x s → ∃ e ∈ (w.session x).skipped, w.StoredFor x e s

/-- Frames outstanding besides `t` with different labels are at most as many as these
    frames. -/
theorem length_le_others {store : SkippedKeys α}
    (hnodup : (store.map Naming.byLabel.ofEntry).Nodup)
    (hstore : ∀ e ∈ store, ∃ s, w.StoredFor x e s ∧
      Naming.byLabel.ofEntry e ∉ w.openedNames .byLabel x ∧
      Naming.byLabel.ofEntry e ≠ Naming.byLabel.ofSealing t) :
    store.length ≤ (w.others x t).length := by
  have hsubset : store.map Naming.byLabel.ofEntry
      ⊆ (w.others x t).map Naming.byLabel.ofSealing := by
    intro name hname
    obtain ⟨e, he, rfl⟩ := List.mem_map.mp hname
    obtain ⟨s, hstored, hunopened, hne⟩ := hstore e he
    rw [← hstored.name_eq .byLabel] at hunopened hne ⊢
    refine List.mem_map_of_mem (mem_others.mpr
      ⟨mem_unopened_of_label hstored.1 hstored.2.1 hunopened, fun heq => hne ?_⟩)
    rw [Naming.ofSealing, Naming.ofSealing, Sealing.header_eq_of_sealed heq]
  have hle := (List.subperm_of_subset hnodup hsubset).length_le
  rw [List.length_map, List.length_map] at hle
  exact hle

omit [Octet α] in
/-- Frames that are not outstanding leave so many fewer. -/
theorem length_unopened_add_le {frames : List (Sealing α)} (hnodup : frames.Nodup)
    (hframes : ∀ u ∈ frames, u ∈ w.sealings ∧ u ∉ w.unopened x) :
    (w.unopened x).length + frames.length ≤ w.sealings.length := by
  have hsplit := w.sealings.length_eq_length_filter_add fun u =>
    u.sender = x.peer ∧ u.sealed ∉ (w.openedBy x).map Opening.sealed
  have hrest := (List.subperm_of_subset hnodup fun u hu => by
    obtain ⟨hmem, hopened⟩ := hframes u hu
    rw [World.mem_unopened, not_and] at hopened
    refine List.mem_filter.mpr ⟨hmem, ?_⟩
    rw [Bool.not_eq_true', decide_eq_false_iff_not]
    exact hopened hmem : frames.Subperm (w.sealings.filter fun u =>
      !decide (u.sender = x.peer ∧ u.sealed ∉ (w.openedBy x).map Opening.sealed))).length_le
  rw [unopened]
  omega

end World

end Quietwire
