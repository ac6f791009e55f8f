/-
  Quietwire.Ratchet.Reordering

  Deliveries in any order.  What a session is after frames were delivered to it is told
  by the set of the frames it opened (`World.Delivered`), so two orders of the same
  frames leave it the same, its store of skipped keys included.
-/
import Quietwire.Symbolic.Dialogue
import Quietwire.Ratchet.StoreOrder
import Quietwire.Ratchet.StoreBounds
import Mathlib.Data.Set.Insert

namespace Quietwire

variable {α σ : Type} [DecidableEq α] [Octet α] {P : Primitives α σ} {sharedKey : SecretKey α}

attribute [ext] Session

namespace World

variable {w v v₁ v₂ : World α σ} {x : Party} {own : σ}

/-! ## The set of frames opened -/

/-- In `v`, the party `x` has opened the frames in `opened`, with the ratchet key `own` drawn
    for the ratchet step if there was one, and nothing else has happened since `w`. -/
structure Delivered (w : World α σ) (x : Party) (own : σ) (opened : Set (Sealing α))
    (v : World α σ) : Prop where
  sealings : v.sealings = w.sealings
  stepsElse : v.steps x.peer = w.steps x.peer
  steps : (v.steps x = w.steps x ∧ v.ratchets = w.ratchets ∧ ∀ s ∈ opened, s.chain ≤ w.steps x) ∨
    (v.steps x = w.steps x + 1 ∧ v.ratchets = own :: w.ratchets ∧
      ∃ s ∈ opened, s.chain = w.steps x + 1)
  received : ∀ n, v.received x ≤ n ↔ (v.steps x = w.steps x → w.received x ≤ n) ∧
    ∀ s ∈ opened, s.chain = v.steps x → s.number < n
  unopened : ∀ s, s ∈ v.unopened x ↔ s ∈ w.unopened x ∧ s ∉ opened
  passed : ∀ s, w.Passed x s → v.Passed x s
  accounted : v.Accounted fun y e => y = x → ∃ s, w.StoredFor x e s ∧ ¬ w.Kept x s
  stored : ∀ e ∈ (v.session x).skipped, e ∈ (w.session x).skipped ∨
    ∃ s, w.StoredFor x e s ∧ ¬ w.Passed x s

omit [DecidableEq α] in
theorem StoredFor.unique {e : SkippedKey α} {s t : Sealing α} (distinct : Naming.byLabel.Distinct w)
    (hs : w.StoredFor x e s) (ht : w.StoredFor x e t) : s = t :=
  distinct s hs.1 t ht.1 (hs.2.1.trans ht.2.1.symm)
    ((hs.name_eq .byLabel).trans (ht.name_eq .byLabel).symm)

omit [DecidableEq α] in
theorem StoredFor.entry_unique {e f : SkippedKey α} {s : Sealing α} (he : w.StoredFor x e s)
    (hf : w.StoredFor x f s) : e = f := by
  obtain ⟨-, -, heKey, heRatchet, heNumber⟩ := he
  obtain ⟨-, -, hfKey, hfRatchet, hfNumber⟩ := hf
  cases e with
  | mk eRatchet eNumber eKey =>
    cases f with
    | mk fRatchet fNumber fKey =>
      obtain rfl := Option.some.inj (heKey.symm.trans hfKey)
      obtain rfl := heRatchet.symm.trans hfRatchet
      obtain rfl := heNumber.symm.trans hfNumber
      rfl

omit [DecidableEq α] in
/-- The entry that would hold the key of a frame. -/
theorem Lockstep.exists_storedFor (h : Lockstep P sharedKey .byLabel w) {s : Sealing α}
    (hs : s ∈ w.sealings) (hsender : s.sender = x.peer) : ∃ e, w.StoredFor x e s := by
  obtain ⟨key, hkey, -⟩ := (h.genuine s hs).sealing
  exact ⟨⟨s.header.ratchet, s.header.messageNumber, key⟩, hs, hsender, hkey, rfl, rfl⟩

/-- One frame fewer is outstanding once it was opened. -/
theorem Delivery.mem_unopened_self {v' : World α σ} {s' : Session α σ} {o : Opening α}
    {t s : Sealing α} (d : Delivery .byLabel v v' s' o t) (distinct : Naming.byLabel.Distinct v) :
    s ∈ v'.unopened o.receiver ↔ s ∈ v.unopened o.receiver ∧ s ≠ t := by
  rw [mem_unopened, mem_unopened, d.sealings, d.openedBy_self, List.map_cons, List.mem_cons, not_or,
    ← d.origin.sealed_eq]
  constructor
  · rintro ⟨hmem, hsender, hne, hunopened⟩
    exact ⟨⟨hmem, hsender, hunopened⟩, fun heq => hne (by rw [heq])⟩
  · rintro ⟨⟨hmem, hsender, hunopened⟩, hne⟩
    refine ⟨hmem, hsender, fun heq => hne ?_, hunopened⟩
    exact distinct.eq_of_sealed hmem d.origin.mem (hsender.trans d.origin.sender.symm) heq

theorem Delivered.refl (h : Lockstep P sharedKey .byLabel w) : w.Delivered x own ∅ w where
  sealings := rfl
  stepsElse := rfl
  steps := .inl ⟨rfl, rfl, by simp⟩
  received n := by simp
  unopened s := by simp
  passed s := id
  accounted := by
    intro y s hs hpassed
    obtain ⟨hmem, hsender, -⟩ := mem_unopened.mp hs
    obtain ⟨e, hstored⟩ := h.exists_storedFor hmem hsender
    by_cases hkept : w.Kept y s
    · obtain ⟨f, hf, hfor⟩ := hkept hpassed
      exact ⟨f, hfor, .inl hf⟩
    · refine ⟨e, hstored, .inr fun hy => ?_⟩
      subst hy
      exact ⟨s, hstored, hkept⟩
  stored e he := .inl he

namespace Delivered

variable {opened : Set (Sealing α)} (d : w.Delivered x own opened v)

include d

theorem storedFor_iff {e : SkippedKey α} {s : Sealing α} :
    v.StoredFor x e s ↔ w.StoredFor x e s := by
  rw [StoredFor, StoredFor, d.sealings]

theorem unopened_le : (v.unopened x).length ≤ (w.unopened x).length := by
  rw [World.unopened, World.unopened, d.sealings, ← List.countP_eq_length_filter,
    ← List.countP_eq_length_filter]
  refine List.countP_mono_left fun s hs hunopened => ?_
  rw [decide_eq_true_iff] at hunopened ⊢
  have hmem := (d.unopened s).mp (mem_unopened.mpr ⟨d.sealings ▸ hs, hunopened⟩)
  exact (mem_unopened.mp hmem.1).2

variable (distinct : Naming.byLabel.Distinct w) {s : Sealing α}

include distinct

/-- Nothing more was evicted. -/
theorem kept (hs : s ∈ v.unopened x) (hkept : w.Kept x s) : v.Kept x s := by
  intro hpassed
  obtain ⟨e, hstored, he | hlost⟩ := d.accounted x s hs hpassed
  · exact ⟨e, he, hstored⟩
  · obtain ⟨u, hu, hdropped⟩ := hlost rfl
    rw [hu.unique distinct (d.storedFor_iff.mp hstored)] at hdropped
    exact absurd hkept hdropped

/-- What was evicted is not stored again. -/
theorem dropped (hdropped : ¬ w.Kept x s) : ¬ v.Kept x s := by
  intro hkept
  rw [Kept, Classical.not_imp] at hdropped
  obtain ⟨hpassed, hnone⟩ := hdropped
  obtain ⟨e, he, hstored⟩ := hkept (d.passed s hpassed)
  have hfor := d.storedFor_iff.mp hstored
  rcases d.stored e he with hold | ⟨u, hu, hnot⟩
  · exact hnone ⟨e, hold, hfor⟩
  · rw [hu.unique distinct hfor] at hnot
    exact hnot hpassed

/-- The store holds the keys of the frames passed and not opened, but for those that were
    evicted before. -/
theorem mem_skipped_iff (h : Lockstep P sharedKey .byLabel v)
    (hdistinct : (v.ratchets.map (publicKey P)).Nodup) {e : SkippedKey α} :
    e ∈ (v.session x).skipped ↔ ∃ s ∈ w.unopened x, s ∉ opened ∧ v.Passed x s ∧ w.Kept x s ∧
      w.StoredFor x e s := by
  constructor
  · intro he
    obtain ⟨s, hstored, hpassed, hunopened⟩ := h.stored x e he
    rw [← hstored.name_eq .byLabel] at hunopened
    have hs := h.mem_unopened_of_name hdistinct hstored.1 hstored.2.1 hunopened
    have hkept : w.Kept x s := by
      by_contra hdropped
      exact d.dropped distinct hdropped fun _ => ⟨e, he, hstored⟩
    obtain ⟨hmem, hnew⟩ := (d.unopened s).mp hs
    exact ⟨s, hmem, hnew, hpassed, hkept, d.storedFor_iff.mp hstored⟩
  · rintro ⟨s, hmem, hnew, hpassed, hkept, hfor⟩
    obtain ⟨f, hf, hstored⟩ := d.kept distinct ((d.unopened s).mpr ⟨hmem, hnew⟩) hkept hpassed
    rw [hfor.entry_unique (d.storedFor_iff.mp hstored)]
    exact hf

variable {s' : Session α σ} {key : Key α} (h : Lockstep P sharedKey .byLabel v)
  (hdistinct : (v.ratchets.map (publicKey P)).Nodup)

omit distinct

include h hdistinct

/-- One frame more was opened. -/
theorem extend {v' : World α σ} {stepped : Bool}
    (hopened : Opened P sharedKey .byLabel v x s.sealed s.plaintext s key s' stepped)
    (delivery : Delivery .byLabel v v' s' ⟨x, some key, s.plaintext, s.sealed⟩ s)
    (haccounted : v'.Accounted fun y e => y = x → ∃ u, w.StoredFor x e u ∧ ¬ w.Kept x u)
    (steps position : Nat) (ratchets : List σ) (hstepsElse : v'.steps x.peer = v.steps x.peer)
    (hsteps : v'.steps x = steps) (hratchets : v'.ratchets = ratchets)
    (hposition : v'.received x = position)
    (hstep : (steps = w.steps x ∧ ratchets = w.ratchets ∧
        ∀ u ∈ insert s opened, u.chain ≤ w.steps x) ∨
      (steps = w.steps x + 1 ∧ ratchets = own :: w.ratchets ∧
        ∃ u ∈ insert s opened, u.chain = w.steps x + 1))
    (hreceived : ∀ n, position ≤ n ↔ (steps = w.steps x → w.received x ≤ n) ∧
      (s.chain = steps → s.number < n) ∧ ∀ u ∈ opened, u.chain = steps → u.number < n) :
    w.Delivered x own (insert s opened) v' where
  sealings := delivery.sealings.trans d.sealings
  stepsElse := hstepsElse.trans d.stepsElse
  steps := by
    rw [hsteps, hratchets]
    exact hstep
  received n := by
    rw [hsteps, hposition, hreceived, Set.forall_mem_insert]
  unopened u := by
    have hunopened := delivery.mem_unopened_self (s := u) (h.distinct_byLabel hdistinct)
    rw [hunopened, d.unopened, Set.mem_insert_iff, not_or, and_assoc, and_comm (a := u ∉ opened)]
  passed u hu := delivery.passed_mono x u (d.passed u hu)
  accounted := haccounted
  -- stored before, or stored now for a frame that was not passed at the start
  stored e he := by
    obtain ⟨added, hsublist, -, hadded⟩ := hopened.exists_added h
    have hself : v'.session x = s' := delivery.session_self
    rw [hself] at he
    rcases List.mem_append.mp (hsublist.subset he) with hold | hnew
    · exact d.stored e hold
    · obtain ⟨u, hu, hnot⟩ := hadded e hnew
      exact .inr ⟨u, d.storedFor_iff.mp hu, fun hpassed => hnot (d.passed u hpassed)⟩

omit h hdistinct in
/-- A frame of a chain that was reached makes no ratchet step. -/
theorem steps_stay (hle : s.chain ≤ v.steps x) :
    (v.steps x = w.steps x ∧ v.ratchets = w.ratchets ∧
        ∀ u ∈ insert s opened, u.chain ≤ w.steps x) ∨
      (v.steps x = w.steps x + 1 ∧ v.ratchets = own :: w.ratchets ∧
        ∃ u ∈ insert s opened, u.chain = w.steps x + 1) := by
  rcases d.steps with ⟨hsteps, hratchets, hall⟩ | ⟨hsteps, hratchets, u, hu, hchain⟩
  · exact .inl ⟨hsteps, hratchets, Set.forall_mem_insert.mpr ⟨hsteps ▸ hle, hall⟩⟩
  · exact .inr ⟨hsteps, hratchets, u, Set.mem_insert_of_mem s hu, hchain⟩

omit h hdistinct in
/-- A frame of the next chain makes the only one. -/
theorem not_stepped (hchain : s.chain ≤ w.steps x + 1) (hnext : s.chain = v.steps x + 1) :
    v.steps x = w.steps x ∧ v.ratchets = w.ratchets ∧ ∀ u ∈ opened, u.chain ≤ w.steps x := by
  rcases d.steps with hstays | ⟨hsteps, -⟩
  · exact hstays
  · omega

/-- A frame is opened. -/
theorem opening {generated : Except CryptoError σ}
    (run : Session.Decrypted P (v.session x) s.sealed generated s.plaintext key s')
    (hopened : Opened P sharedKey .byLabel v x s.sealed s.plaintext s key s'
      ((v.session x).takesStep s.header))
    (hown : (v.session x).takesStep s.header = true → generated = .ok own)
    (hchain : s.chain ≤ w.steps x + 1) (hbudget : (v.others x s).length ≤ 1000) :
    w.Delivered x own (insert s opened) (v.step P (.decrypt x s.sealed generated)).1 := by
  have distinct := h.distinct_byLabel hdistinct
  have haccounted := d.accounted.budgeted h distinct hopened hbudget
  rw [World.step, decrypt_of_decrypted run]
  have hheader : Header.parse s.sealed.frame = s.header := rfl
  rw [hheader]
  generalize hstepped : (v.session x).takesStep s.header = stepped at *
  have hpath := hopened
  cases hopened with
  | skipped store origin passed stored =>
    -- from the store: neither the chain nor the position moves
    have a := h.advance_skipped store origin passed stored
    refine d.extend h hdistinct hpath a.delivery haccounted (v.steps x) (v.received x) v.ratchets
      rfl rfl rfl a.received_self ?_ fun n => ?_
    · exact d.steps_stay (passed.elim Nat.le_of_lt fun hp => hp.1.le)
    · -- the frame was below the position already
      rw [d.received n]
      constructor
      · rintro ⟨hbase, hall⟩
        have hle := (d.received n).mpr ⟨hbase, hall⟩
        refine ⟨hbase, fun hcurrent => ?_, hall⟩
        rcases passed with hlt | ⟨-, hlt⟩
        · omega
        · omega
      · rintro ⟨hbase, -, hall⟩
        exact ⟨hbase, hall⟩
  | current origin hcurrent ahead =>
    -- in the current chain
    have a := h.advance_current distinct origin hcurrent ahead
    refine d.extend h hdistinct hpath a.delivery haccounted (v.steps x) (s.number + 1) v.ratchets
      rfl rfl rfl a.received_self ?_ fun n => ?_
    · exact d.steps_stay (Nat.le_of_eq hcurrent)
    · -- the position moves on past the frame
      have hahead := ahead.position_le
      constructor
      · intro hle
        obtain ⟨hbase, hall⟩ := (d.received n).mp (by omega)
        exact ⟨hbase, fun _ => hle, hall⟩
      · rintro ⟨-, hlt, -⟩
        exact hlt hcurrent
  | @step key receiving sending next root origin hnext hahead ahead sendingKeys =>
    -- with a ratchet step, which must be the first of these deliveries to take one
    have stride := h.stride_step distinct origin hnext hahead ahead rfl sendingKeys
    obtain ⟨hstays, hratchets, hall⟩ := d.not_stepped hchain hnext
    obtain rfl := hown rfl
    obtain rfl : next = own := run.ownRatchet_eq P hstepped
    refine d.extend h hdistinct hpath stride.delivery haccounted (v.steps x + 1) (s.number + 1)
      (next :: v.ratchets) (steps_recordStep_of_ne v _ _ (Party.peer_ne x))
      (steps_recordStep_self v _ _) rfl stride.received_self ?_ fun n => ?_
    · exact .inr ⟨by omega, by rw [hratchets], s, Set.mem_insert s opened, by omega⟩
    · -- the frames opened before are of earlier chains
      constructor
      · intro hle
        refine ⟨fun hsame => by omega, fun _ => hle, fun u hu hlater => ?_⟩
        have hearlier := hall u hu
        omega
      · rintro ⟨-, hlt, -⟩
        exact hlt hnext

end Delivered

/-! ## One session for one set -/

omit [DecidableEq α] in
/-- All of a session but its store is told by the ratchet keys drawn, the ratchet steps, the
    frames sealed and the position in the receiving chain. -/
theorem Synced.session_eq (h₁ : Synced P sharedKey v₁ x) (h₂ : Synced P sharedKey v₂ x)
    (hratchets : v₁.ratchets = v₂.ratchets) (hsteps : v₁.steps x = v₂.steps x)
    (hsealings : v₁.sealings = v₂.sealings) (hreceived : v₁.received x = v₂.received x)
    (hskipped : (v₁.session x).skipped = (v₂.session x).skipped) :
    v₁.session x = v₂.session x := by
  have hera : ∀ y chain, v₁.eraOf y chain = v₂.eraOf y chain := fun y chain => by
    rw [eraOf, eraOf, hratchets]
  have hsent : ∀ y chain, v₁.sentIn y chain = v₂.sentIn y chain := fun y chain => by
    rw [sentIn, sentIn, hsealings]
  have hchain : v₁.sendingChain x = v₂.sendingChain x := by
    rw [sendingChain_eq, sendingChain_eq, hsteps]
  have hheads := h₁.era
  rw [hera, hchain, h₂.era, hera, hsteps] at hheads
  apply Session.ext
  · rw [h₁.rootKey, h₂.rootKey, hera, hchain]
  · exact (List.cons_eq_cons.mp hheads).1.symm
  · rw [h₁.remote, h₂.remote, hera, hsteps]
  · rw [h₁.sending, h₂.sending, hera, hsent, hchain]
  · rw [h₁.receiving, h₂.receiving, hera, hsteps, hreceived]
  · apply UInt32.toNat_inj.mp
    rw [h₁.previous, h₂.previous, hsent, hchain]
  · exact hskipped

namespace Delivered

variable {opened : Set (Sealing α)} (d₁ : w.Delivered x own opened v₁)
  (d₂ : w.Delivered x own opened v₂)

include d₁ d₂

theorem same_steps : v₁.steps x = v₂.steps x ∧ v₁.ratchets = v₂.ratchets := by
  rcases d₁.steps with ⟨hsteps₁, hratchets₁, hall₁⟩ | ⟨hsteps₁, hratchets₁, s, hs, hchain⟩
  · rcases d₂.steps with ⟨hsteps₂, hratchets₂, -⟩ | ⟨-, -, t, ht, hnext⟩
    · exact ⟨hsteps₁.trans hsteps₂.symm, hratchets₁.trans hratchets₂.symm⟩
    · have hle := hall₁ t ht
      omega
  · rcases d₂.steps with ⟨-, -, hall₂⟩ | ⟨hsteps₂, hratchets₂, -⟩
    · have hle := hall₂ s hs
      omega
    · exact ⟨hsteps₁.trans hsteps₂.symm, hratchets₁.trans hratchets₂.symm⟩

theorem same_received : v₁.received x = v₂.received x := by
  have hle : ∀ n, v₁.received x ≤ n ↔ v₂.received x ≤ n := fun n => by
    rw [d₁.received, d₂.received, (d₁.same_steps d₂).1]
  exact Nat.le_antisymm ((hle _).mpr (Nat.le_refl _)) ((hle _).mp (Nat.le_refl _))

variable (h₁ : Lockstep P sharedKey .byLabel v₁) (h₂ : Lockstep P sharedKey .byLabel v₂)
  (distinct : Naming.byLabel.Distinct w) (hdistinct : (v₁.ratchets.map (publicKey P)).Nodup)
  (ho₁ : v₁.StoreOrdered) (ho₂ : v₂.StoreOrdered)

include h₁ h₂ distinct hdistinct ho₁ ho₂

/-- The same entries in the same order. -/
theorem same_skipped : (v₁.session x).skipped = (v₂.session x).skipped := by
  obtain ⟨hsteps, hratchets⟩ := d₁.same_steps d₂
  have hpassed : ∀ s, v₁.Passed x s ↔ v₂.Passed x s := fun s => by
    rw [Passed, Passed, hsteps, d₁.same_received d₂]
  have hmem : ∀ e, e ∈ (v₁.session x).skipped ↔ e ∈ (v₂.session x).skipped := fun e => by
    rw [d₁.mem_skipped_iff distinct h₁ hdistinct,
      d₂.mem_skipped_iff distinct h₂ (hratchets ▸ hdistinct)]
    simp only [hpassed]
  have hperm : (v₁.session x).skipped.Perm (v₂.session x).skipped :=
    (List.perm_ext_iff_of_nodup (List.Nodup.of_map _ (h₁.storedOnce x))
      (List.Nodup.of_map _ (h₂.storedOnce x))).mpr hmem
  have hordered : (v₂.session x).skipped.Pairwise (v₁.StoredBefore x) :=
    (ho₂ x).imp fun hbefore => hbefore.mono (by
      rw [d₁.sealings, d₂.sealings]
      exact List.Subset.refl _)
  refine hperm.eq_of_pairwise (fun e f _ _ hef hfe => ?_) (ho₁ x) hordered
  -- no two entries are each before the other
  obtain ⟨s, t, hs, ht, hbefore⟩ := hef
  obtain ⟨t', s', ht', hs', hafter⟩ := hfe
  rw [d₁.storedFor_iff] at hs ht ht' hs'
  rw [ht'.unique distinct ht, hs'.unique distinct hs] at hafter
  exact absurd hafter hbefore.asymm

/-- Two orders of the same frames leave the same session. -/
theorem same_session : v₁.session x = v₂.session x := by
  obtain ⟨hsteps, hratchets⟩ := d₁.same_steps d₂
  exact (h₁.synced x).session_eq (h₂.synced x) hratchets hsteps
    (d₁.sealings.trans d₂.sealings.symm) (d₁.same_received d₂)
    (d₁.same_skipped d₂ h₁ h₂ distinct hdistinct ho₁ ho₂)

end Delivered

/-! ## One delivery -/

/-- A frame that opens as what it was sealed as is no forgery. -/
theorem unforged_of_decrypted {s : Sealing α} {generated : Except CryptoError σ} {key : Key α}
    {s' : Session α σ} (hs : s ∈ w.sealings) (hkey : s.key = some key)
    (run : Session.Decrypted P (w.session x) s.sealed generated s.plaintext key s') :
    w.Unforged P (.decrypt x s.sealed generated) := by
  intro key' plaintext hkeyFor hopens
  obtain rfl : key = key' := Option.some.inj (run.messageKeyFor.symm.trans hkeyFor)
  obtain rfl : s.plaintext = plaintext := Opens.unique (run.opens P) hopens
  exact ⟨s, mem_sealings.mp hs, hkey, rfl, rfl, rfl, rfl⟩

/-- A frame whose key was evicted is refused. -/
theorem Lockstep.refused_of_dropped (h : Lockstep P sharedKey .byKey w) (free : FreeKdf P)
    (fresh : FreshSharedKey P sharedKey) (hdistinct : (w.ratchets.map (publicKey P)).Nodup)
    {s : Sealing α} {generated : Except CryptoError σ} (hs : s ∈ w.unopened x)
    (hdropped : ¬ w.Kept x s) (hunforged : w.Unforged P (.decrypt x s.sealed generated)) :
    ∃ failure, w.step P (.decrypt x s.sealed generated) = (w, .opened (.error failure)) := by
  cases hrun : Session.decrypt P s.sealed generated (w.session x) with
  | error failure s' => exact ⟨failure, decrypt_of_error P hrun⟩
  | ok plaintext s' =>
    obtain ⟨key, run⟩ := (Session.decryptWith_eq_ok_iff P _ _ _ _ _).mp hrun
    obtain ⟨hmem, hsender, -⟩ := mem_unopened.mp hs
    exact absurd (h.kept_of_decrypted free fresh hdistinct hmem hsender hunforged run) hdropped

/-- What a delivery is supplied with: `own` for a ratchet step, and a frame whose key was
    evicted before does not pass for another one. -/
def Supplied (P : Primitives α σ) (w : World α σ) (x : Party) (own : σ) (v : World α σ) :
    Event α σ → Prop
  | .encrypt _ _ _ => False
  | .decrypt receiver sealed generated => ∀ s ∈ w.unopened x, s.sealed = sealed →
    (w.Kept x s → (v.session x).takesStep s.header = true → generated = .ok own) ∧
      (¬ w.Kept x s → v.Unforged P (.decrypt receiver sealed generated))

/-- The answer to a delivery: the frame opens to its plaintext, unless its key was evicted
    before. -/
def Answered (w : World α σ) (x : Party) (s : Sealing α) (output : Output α) : Prop :=
  (w.Kept x s → output = .opened (.ok s.plaintext)) ∧
    (¬ w.Kept x s → ∃ failure, output = .opened (.error failure))

section Delivery

variable {opened : Set (Sealing α)} (d : w.Delivered x own opened v)
  (h : Lockstep P sharedKey .byKey v) (free : FreeKdf P) (fresh : FreshSharedKey P sharedKey)
  (correct : CorrectPrimitives P) (distinct : Naming.byLabel.Distinct w)
  (hdistinct : (v.ratchets.map (publicKey P)).Nodup) (hbudget : (w.unopened x).length ≤ 1000)

include d h correct distinct hdistinct hbudget

/-- A frame whose key was kept opens. -/
theorem Delivered.opens {s : Sealing α} {generated : Except CryptoError σ}
    (hs : s ∈ v.unopened x) (hkept : w.Kept x s) (hchain : s.chain ≤ w.steps x + 1)
    (hown : (v.session x).takesStep s.header = true → generated = .ok own) :
    (v.step P (.decrypt x s.sealed generated)).2 = .opened (.ok s.plaintext) ∧
      w.Delivered x own (insert s opened) (v.step P (.decrypt x s.sealed generated)).1 ∧
      v.Unforged P (.decrypt x s.sealed generated) := by
  have hlabel := h.byLabel hdistinct
  have hothers : (v.others x s).length ≤ 1000 :=
    (List.length_filter_le _ _).trans (d.unopened_le.trans hbudget)
  obtain ⟨key, s', hrun, hopened⟩ :=
    hlabel.decrypts correct (d.kept distinct hs hkept) hdistinct hs hothers own
  have run : Session.Decrypted P (v.session x) s.sealed generated s.plaintext key s' := by
    cases hsteps : (v.session x).takesStep s.header with
    | false => exact hrun.of_stays P hsteps generated
    | true =>
      rw [hown hsteps]
      exact hrun
  refine ⟨?_, d.opening hlabel hdistinct run hopened hown hchain hothers, ?_⟩
  · rw [World.step, decrypt_of_decrypted run]
  · exact unforged_of_decrypted (mem_unopened.mp hs).1 hopened.origin.key_eq run

end Delivery

/-! ## All deliveries -/

omit [DecidableEq α] [Octet α] in
/-- The frames of `order` are delivered to `x`, each in a call with its outcome of the RNG. -/
def deliveries (x : Party) (order : List (Sealing α × Except CryptoError σ)) :
    List (Event α σ) :=
  order.map fun delivery => .decrypt x delivery.1.sealed delivery.2

/-- The frames of a list whose keys were not evicted before. -/
def keptOf (w : World α σ) (x : Party) (frames : List (Sealing α)) : Set (Sealing α) :=
  {s | s ∈ frames ∧ w.Kept x s}

omit [DecidableEq α] in
theorem union_keptOf_of_kept (opened : Set (Sealing α)) {s : Sealing α}
    (frames : List (Sealing α)) (hkept : w.Kept x s) :
    opened ∪ w.keptOf x (s :: frames) = insert s opened ∪ w.keptOf x frames := by
  ext u
  simp only [keptOf, Set.mem_union, Set.mem_insert_iff, Set.mem_ofPred_eq, List.mem_cons]
  constructor
  · rintro (hin | ⟨rfl | hu, hkeptU⟩)
    · exact .inl (.inr hin)
    · exact .inl (.inl rfl)
    · exact .inr ⟨hu, hkeptU⟩
  · rintro ((rfl | hin) | ⟨hu, hkeptU⟩)
    · exact .inr ⟨.inl rfl, hkept⟩
    · exact .inl hin
    · exact .inr ⟨.inr hu, hkeptU⟩

omit [DecidableEq α] in
theorem keptOf_of_dropped {s : Sealing α} (frames : List (Sealing α)) (hdropped : ¬ w.Kept x s) :
    w.keptOf x (s :: frames) = w.keptOf x frames := by
  ext u
  simp only [keptOf, Set.mem_ofPred_eq, List.mem_cons]
  constructor
  · rintro ⟨rfl | hu, hkept⟩
    · exact absurd hkept hdropped
    · exact ⟨hu, hkept⟩
  · rintro ⟨hu, hkept⟩
    exact ⟨.inr hu, hkept⟩

section Run

variable {w₀ : World α σ} {signedPrekey ownRatchet : σ}
  (hstart : World.start P sharedKey signedPrekey ownRatchet = .ok w₀)
  (free : FreeKdf P) (fresh : FreshSharedKey P sharedKey) (correct : CorrectPrimitives P)
  (hchains : ∀ s ∈ w.unopened x, s.chain ≤ w.steps x + 1)
  (hfresh : ((own :: w.ratchets).map (publicKey P)).Nodup)
  (hbudget : (w.unopened x).length ≤ 1000) (distinct : Naming.byLabel.Distinct w)

include hstart free fresh correct hchains hfresh hbudget distinct

omit hstart free fresh correct hchains hbudget distinct in
theorem Delivered.ratchets_nodup {opened : Set (Sealing α)} (d : w.Delivered x own opened v) :
    (v.ratchets.map (publicKey P)).Nodup := by
  rcases d.steps with ⟨-, hratchets, -⟩ | ⟨-, hratchets, -⟩
  · rw [hratchets]
    exact (List.nodup_cons.mp hfresh).2
  · rw [hratchets]
    exact hfresh

/-- In a run of deliveries, the frames whose keys were kept are opened. -/
theorem Delivered.run (order : List (Sealing α × Except CryptoError σ))
    {opened : Set (Sealing α)} (d : w.Delivered x own opened v) (hreaches : World.Reaches P w₀ v)
    (hnodup : (order.map Prod.fst).Nodup) (hall : ∀ s ∈ order.map Prod.fst, s ∈ v.unopened x)
    (hsupplied : Machine.Allowed (World.step P) (w.Supplied P x own) v (deliveries x order)) :
    List.Forall₂ (w.Answered x) (order.map Prod.fst)
        (Machine.run (World.step P) v (deliveries x order)).2 ∧
      w.Delivered x own (opened ∪ w.keptOf x (order.map Prod.fst))
        (Machine.run (World.step P) v (deliveries x order)).1 ∧
      World.Reaches P w₀ (Machine.run (World.step P) v (deliveries x order)).1 := by
  induction order generalizing v opened with
  | nil =>
    refine ⟨.nil, ?_, hreaches⟩
    have hnone : opened ∪ w.keptOf x [] = opened := by simp [keptOf]
    rw [List.map_nil, hnone]
    exact d
  | cons delivery rest ih =>
    obtain ⟨s, generated⟩ := delivery
    obtain ⟨hnew, hnodup⟩ := List.nodup_cons.mp hnodup
    obtain ⟨hs, hrest⟩ := List.forall_mem_cons.mp hall
    obtain ⟨hevent, hsupplied⟩ := hsupplied
    have h := (Lockstep.start hstart).reaches free fresh hreaches
    have hdistinct := d.ratchets_nodup hfresh
    obtain ⟨hmem, hnotOpened⟩ := (d.unopened s).mp hs
    obtain ⟨hown, hunforged⟩ := hevent s hmem rfl
    by_cases hkept : w.Kept x s
    · obtain ⟨houtput, d', hgenuine⟩ := d.opens h correct distinct hdistinct hbudget hs hkept
        (hchains s hmem) (hown hkept)
      have hrest' : ∀ u ∈ rest.map Prod.fst,
          u ∈ (v.step P (.decrypt x s.sealed generated)).1.unopened x := fun u hu => by
        obtain ⟨huMem, huNew⟩ := (d.unopened u).mp (hrest u hu)
        refine (d'.unopened u).mpr ⟨huMem, fun hin => ?_⟩
        rcases Set.mem_insert_iff.mp hin with rfl | hin
        · exact hnew hu
        · exact huNew hin
      obtain ⟨hanswers, hdelivered, hreached⟩ :=
        ih d' (hreaches.tail hgenuine) hnodup hrest' hsupplied
      refine ⟨.cons ⟨fun _ => houtput, fun hdropped => absurd hkept hdropped⟩ hanswers, ?_,
        hreached⟩
      rw [List.map_cons, union_keptOf_of_kept opened _ hkept]
      exact hdelivered
    · obtain ⟨failure, hrefused⟩ := h.refused_of_dropped free fresh hdistinct hs
        (d.dropped distinct hkept) (hunforged hkept)
      -- nothing has happened
      have hsame : (v.step P (.decrypt x s.sealed generated)).1 = v := by rw [hrefused]
      rw [hsame] at hsupplied
      obtain ⟨hanswers, hdelivered, hreached⟩ := ih d hreaches hnodup hrest hsupplied
      have hrun : Machine.run (World.step P) v (deliveries x ((s, generated) :: rest))
          = ((Machine.run (World.step P) v (deliveries x rest)).1, .opened (.error failure) ::
            (Machine.run (World.step P) v (deliveries x rest)).2) := by
        rw [deliveries, List.map_cons, Machine.run, hrefused]
        rfl
      rw [hrun]
      rw [List.map_cons, keptOf_of_dropped _ hkept]
      exact ⟨.cons ⟨fun hin => absurd hin hkept, fun _ => ⟨failure, rfl⟩⟩ hanswers, hdelivered,
        hreached⟩

end Run

end World

/-! ## A frame whose key was evicted -/

namespace World

variable {w : World α σ} {x : Party} {s : Sealing α}

/-- In a store of one chain, the keys that a frame of this chain overtakes are cut to the share
    of the chain with the others. -/
theorem Lockstep.length_skipped_current (h : Lockstep P sharedKey .byLabel w)
    (hdistinct : (w.ratchets.map (publicKey P)).Nodup) (correct : CorrectPrimitives P)
    (hs : s ∈ w.sentIn x.peer (w.steps x)) (hahead : w.received x ≤ s.number)
    (hnear : s.number - w.received x ≤ 1000)
    (hstore : ∀ e ∈ (w.session x).skipped, e.ratchet = s.header.ratchet) (own : σ) :
    ((w.step P (.decrypt x s.sealed (.ok own))).1.session x).skipped.length
      = min 1000 ((w.session x).skipped.length + (s.number - w.received x)) := by
  obtain ⟨hmem, hsender, hchain⟩ := mem_sentIn.mp hs
  have hnot : ¬ w.Passed x s := not_passed_of_le hchain hahead
  have hunopened := h.unopened_of_not_passed (h.distinct_byLabel hdistinct) hmem hsender hnot
  obtain ⟨key, s', run, hopened⟩ :=
    h.decrypts_current hdistinct hmem hsender hunopened correct (.ok own) hchain hahead hnear
  have hstays : (w.session x).takesStep (Header.parse s.sealed.frame) = false :=
    h.takesStep_current hs
  rw [h.takesStep_current hs] at hopened
  rw [World.step, decrypt_of_decrypted run, hstays]
  cases hopened with
  | skipped store origin passed stored => exact absurd passed hnot
  | @current key start origin hcurrent ahead =>
    have hlimit := (h.genuine s hmem).belowLimit
    -- the keys up to `s` go into the store, all of one chain
    have hposition : (chainAt P start (w.received x)).next.toNat = w.received x :=
      toNat_ofNat_of_le (by omega)
    show (World.session (w.recordOpening _ _) x).skipped.length = _
    rw [session_recordOpening_self]
    show ((w.session x).skipped.extend s.header.ratchet (messageKeysFrom P _ _
      (s.number - (chainAt P start (w.received x)).next.toNat))).length = _
    rw [SkippedKeys.length_extend_of_chain hstore, messageKeysFrom_length, hposition]

end World

namespace Symbolic

/-- The initiator has sealed 1 003 frames, and the responder has opened the frames 1 000 and
    1 002, so that the key of one of the 1 001 others was evicted. -/
theorem exists_full_store : ∃ w₀ w : World Letter Nat,
    World.start primitives Symbolic.sharedKey 1 2 = .ok w₀ ∧ Run w₀ w [3, 2, 1] ∧
    w.sealings.length ≤ 1003 ∧ (∀ s ∈ w.sealings, s.sender = .initiator → w.Passed .responder s) ∧
    (∃ opened : List (Sealing Letter), opened.length = 2 ∧ opened.Nodup ∧
      ∀ s ∈ opened, s ∈ w.sealings ∧ s ∉ w.unopened .responder) ∧
    (∃ numbers : List Nat, numbers.length = 1001 ∧ numbers.Nodup ∧ ∀ n ∈ numbers,
      ∃ s ∈ w.unopened .responder, s.number = n) ∧
    1 ≤ (w.session .responder).skipped.length ∧ (w.session .responder).skipped.length ≤ 1000 := by
  -- the initiator seals 1 003 frames, and the frame 1 000 arrives
  obtain ⟨w₀, w₁, c⟩ := exists_firstChain 1003 (by decide)
  obtain ⟨near, hnear, hnearNumber⟩ := c.exists_frame (i := 1000) (by decide)
  obtain ⟨far, hfar, hfarNumber⟩ := c.exists_frame (i := 1002) (by decide)
  obtain ⟨r₂, a₂, -⟩ := c.opens hnear (by rw [hnearNumber])
  obtain ⟨hnearMem, hnearSender, hnearChain⟩ := World.mem_sentIn.mp hnear
  obtain ⟨hfarMem, hfarSender, hfarChain⟩ := World.mem_sentIn.mp hfar
  generalize (w₁.step primitives (.decrypt .responder near.sealed (.ok 3))).1 = w₂ at *
  have hsteps₂ : w₂.steps .responder = 1 := a₂.steps.trans hnearChain
  have hreceived₂ : w₂.received .responder = 1001 := by
    rw [a₂.received, hnearNumber]
  have hfar₂ : far ∈ w₂.sentIn .initiator 1 := by
    rw [a₂.sentIn]
    exact hfar
  -- the frame 1 002 arrives
  obtain ⟨r₃, a₃⟩ := r₂.opens_current .responder hsteps₂ hfar₂ (by omega) (by omega) 4 (by decide)
  have hstore : ∀ e ∈ (w₂.session .responder).skipped, e.ratchet = far.header.ratchet := by
    intro e he
    obtain ⟨u, ⟨hu, huSender, -, huRatchet, -⟩, hpassed, -⟩ := r₂.lockstep.stored .responder e he
    have huPos := (r₂.lockstep.genuine u hu).chain_pos
    have huChain : u.chain = 1 := by
      rcases hpassed with hlt | ⟨heq, -⟩
      · omega
      · omega
    have hratchet := (r₂.lockstep.genuine u hu).ratchet
    have hfarRatchet := (r₂.lockstep.genuine far (World.mem_sentIn.mp hfar₂).1).ratchet
    rw [hfarSender, hfarChain] at hfarRatchet
    rw [huSender, huChain] at hratchet
    exact huRatchet.symm.trans (Option.some.inj (hratchet.symm.trans hfarRatchet))
  have hlength := r₂.lockstep.length_skipped_current (x := .responder) r₂.distinct correct
    (by rw [hsteps₂]; exact hfar₂) (by omega) (by omega) hstore 4
  generalize (w₂.step primitives (.decrypt .responder far.sealed (.ok 4))).1 = w₃ at *
  have hsealings : w₃.sealings = w₁.sealings := a₃.sealings.trans a₂.sealings
  have hunopened₃ : ∀ s ∈ w₁.sealings, s.sender = .initiator →
      (s ∈ w₃.unopened .responder ↔ s.sealed ≠ near.sealed ∧ s.sealed ≠ far.sealed) := by
    intro s hs hsender
    rw [a₃.mem_unopened, a₂.mem_unopened]
    simp only [c.mem_unopened hs hsender, true_and]
  refine ⟨w₀, w₃, c.start, r₃, ?_, ?_, ⟨[near, far], rfl, ?_, ?_⟩,
    ⟨List.range 1000 ++ [1001], ?_, ?_, ?_⟩, ?_, ?_⟩
  · rw [hsealings]
    exact c.sealings
  · intro s hs hsender
    have hsPos := (r₃.lockstep.genuine s hs).chain_pos
    have hsLe := (r₃.lockstep.genuine s hs).chain_le
    have hother₂ : w₂.steps .initiator = w₁.steps .initiator := a₂.stepsElse
    have hother₃ : w₃.steps .initiator = w₂.steps .initiator := a₃.stepsElse
    rw [hsender, World.sendingChain, hother₃, hother₂, c.steps] at hsLe
    have hsChain : s.chain = 1 := by omega
    have hbelow := r₃.lockstep.number_lt (World.mem_sentIn.mpr ⟨hs, hsender, hsChain⟩)
    rw [a₃.sentIn, a₂.sentIn, c.length] at hbelow
    refine .inr ⟨by rw [a₃.steps, hsChain, hfarChain], ?_⟩
    rw [a₃.received, hfarNumber]
    exact hbelow
  · refine List.nodup_cons.mpr ⟨?_, List.nodup_singleton _⟩
    rw [List.mem_singleton]
    rintro rfl
    omega
  · intro s hs
    rw [hsealings]
    rcases List.mem_cons.mp hs with rfl | hs
    · exact ⟨hnearMem, fun hmem => ((hunopened₃ _ hnearMem hnearSender).mp hmem).1 rfl⟩
    · rw [List.mem_singleton.mp hs]
      exact ⟨hfarMem, fun hmem => ((hunopened₃ _ hfarMem hfarSender).mp hmem).2 rfl⟩
  · rw [List.length_append, List.length_range]
    rfl
  · refine List.Nodup.append List.nodup_range (List.nodup_singleton _) fun n hn hlast => ?_
    rw [List.mem_singleton.mp hlast, List.mem_range] at hn
    omega
  · intro n hn
    have hother : n < 1003 ∧ n ≠ 1000 ∧ n ≠ 1002 := by
      rcases List.mem_append.mp hn with hn | hn
      · rw [List.mem_range] at hn
        omega
      · rw [List.mem_singleton.mp hn]
        omega
    obtain ⟨s, hs, hnumber⟩ := c.exists_frame hother.1
    obtain ⟨hmem, hsender, -⟩ := World.mem_sentIn.mp hs
    refine ⟨s, (hunopened₃ s hmem hsender).mpr ⟨fun heq => ?_, fun heq => ?_⟩, hnumber⟩
    · have hsame := Sealing.number_eq_of_sealed heq
      omega
    · have hsame := Sealing.number_eq_of_sealed heq
      omega
  · rw [hlength]
    omega
  · rw [hlength]
    exact Nat.min_le_left _ _

/-- After one of the others was opened too, at most 1 000 frames are outstanding, and the key
    of one of them was evicted. -/
theorem exists_evicted : ∃ (w₀ w : World Letter Nat) (s : Sealing Letter),
    World.start primitives Symbolic.sharedKey 1 2 = .ok w₀ ∧ World.Reaches primitives w₀ w ∧
    ((7 :: w.ratchets).map (publicKey primitives)).Nodup ∧
    (w.unopened .responder).length ≤ 1000 ∧ s ∈ w.unopened .responder ∧
    ¬ w.Kept .responder s := by
  obtain ⟨w₀, w, hstart, r, hsealings, hpassed, ⟨opened, htwo, hnodup, hopened⟩,
    ⟨numbers, hcount, hnumbers, hall⟩, hpos, hle⟩ := exists_full_store
  -- 1 000 entries cannot be for 1 001 numbers
  obtain ⟨s, hs, hdropped⟩ : ∃ s ∈ w.unopened .responder, ¬ w.Kept .responder s := by
    by_contra hnone
    push Not at hnone
    have hsubset : numbers ⊆ (w.session .responder).skipped.map fun e => e.number.toNat := by
      intro n hn
      obtain ⟨s, hs, rfl⟩ := hall n hn
      obtain ⟨hmem, hsender, -⟩ := World.mem_unopened.mp hs
      obtain ⟨e, he, hstored⟩ := hnone s hs (hpassed s hmem hsender)
      refine List.mem_map.mpr ⟨e, he, ?_⟩
      rw [← hstored.2.2.2.2]
      rfl
    have hlength := (List.subperm_of_subset hnumbers hsubset).length_le
    rw [List.length_map] at hlength
    omega
  -- but there is an entry, and its frame opens
  obtain ⟨e, he⟩ := List.exists_mem_of_length_pos hpos
  obtain ⟨u, hstored, -, hlabel⟩ := r.lockstep.stored .responder e he
  rw [← hstored.name_eq .byLabel] at hlabel
  have hu := World.mem_unopened_of_label hstored.1 hstored.2.1 hlabel
  have hkept : w.Kept .responder u := fun _ => ⟨e, he, hstored⟩
  have hunopened := World.length_unopened_add_le hnodup hopened
  have hothers : (w.others .responder u).length ≤ 1000 := by
    have hlt : (w.others .responder u).length < (w.unopened .responder).length :=
      List.length_filter_lt_length_iff_exists.mpr ⟨u, hu, by simp⟩
    omega
  obtain ⟨key, s', run, hpath⟩ := r.lockstep.decrypts correct hkept r.distinct hu hothers 5
  have huLe : u.chain ≤ w.steps .responder + 1 := by
    have huPassed := hpassed u hstored.1 hstored.2.1
    rcases huPassed with hlt | ⟨heq, -⟩
    · omega
    · omega
  have d₀ : w.Delivered .responder 5 ∅ w := World.Delivered.refl r.lockstep
  have d := d₀.opening r.lockstep r.distinct run hpath (fun _ => rfl) huLe hothers
  have hreaches := r.reaches.tail (unforged_of_genuine r.lockstep hstored.1 .responder (.ok 5))
  generalize (w.step primitives (.decrypt .responder u.sealed (.ok 5))).1 = v at d hreaches
  have hne : s ≠ u := by
    rintro rfl
    exact hdropped hkept
  refine ⟨w₀, v, s, hstart, hreaches, ?_, ?_, (d.unopened s).mpr ⟨hs, ?_⟩,
    d.dropped (r.lockstep.distinct_byLabel r.distinct) hdropped⟩
  · rcases d.steps with ⟨-, hratchets, -⟩ | ⟨-, hratchets, -⟩
    · rw [hratchets, r.ratchets]
      simp [publicKey_inj]
    · rw [hratchets, r.ratchets]
      simp [publicKey_inj]
  · have hbound := World.length_unopened_add_le (w := v) (x := .responder)
      (List.nodup_cons.mpr ⟨fun hin => (hopened u hin).2 hu, hnodup⟩) (by
        intro t ht
        rw [d.sealings, d.unopened]
        rcases List.mem_cons.mp ht with rfl | hin
        · exact ⟨hstored.1, fun hout => hout.2 (Set.mem_insert _ _)⟩
        · exact ⟨(hopened t hin).1, fun hout => (hopened t hin).2 hout.1⟩)
    rw [d.sealings, List.length_cons] at hbound
    omega
  · simpa using hne

end Symbolic

/-- Delivery order leaves no trace.  In every state that a conversation reaches, with at most
    1 000 frames of the peer unopened, deliveries of the same unopened frames in two orders,
    with the same ratchet key for the ratchet step if one is taken, open the same frames to
    their plaintexts, all those whose keys were not evicted before, and leave the same
    session: its keys, its counters and the entries of its store in their order. -/
theorem delivery_order_leaves_no_trace (free : FreeKdf P) (fresh : FreshSharedKey P sharedKey)
    (correct : CorrectPrimitives P) {signedPrekey ownRatchet : σ} {w₀ w : World α σ}
    (hstart : World.start P sharedKey signedPrekey ownRatchet = .ok w₀)
    (hreaches : World.Reaches P w₀ w) {x : Party} (hbudget : (w.unopened x).length ≤ 1000)
    {own : σ} (hfresh : ((own :: w.ratchets).map (publicKey P)).Nodup)
    {order₁ order₂ : List (Sealing α × Except CryptoError σ)}
    (hperm : (order₁.map Prod.fst).Perm (order₂.map Prod.fst))
    (hnodup : (order₁.map Prod.fst).Nodup) (hset : ∀ s ∈ order₁.map Prod.fst, s ∈ w.unopened x)
    (hsupplied₁ : Machine.Allowed (World.step P) (w.Supplied P x own) w
      (World.deliveries x order₁))
    (hsupplied₂ : Machine.Allowed (World.step P) (w.Supplied P x own) w
      (World.deliveries x order₂)) :
    List.Forall₂ (w.Answered x) (order₁.map Prod.fst)
        (Machine.run (World.step P) w (World.deliveries x order₁)).2 ∧
      List.Forall₂ (w.Answered x) (order₂.map Prod.fst)
        (Machine.run (World.step P) w (World.deliveries x order₂)).2 ∧
      (Machine.run (World.step P) w (World.deliveries x order₁)).1.session x
        = (Machine.run (World.step P) w (World.deliveries x order₂)).1.session x := by
  have h : World.Lockstep P sharedKey .byKey w :=
    (World.Lockstep.start hstart).reaches free fresh hreaches
  have hdistinct : (w.ratchets.map (publicKey P)).Nodup := (List.nodup_cons.mp hfresh).2
  have distinct := h.distinct_byLabel hdistinct
  have hchains : ∀ s ∈ w.unopened x, s.chain ≤ w.steps x + 1 := fun s hs => by
    obtain ⟨hmem, hsender, -⟩ := World.mem_unopened.mp hs
    have hle := (h.genuine s hmem).chain_le
    rw [hsender] at hle
    exact hle.trans (h.steps_le x).2
  have d₀ : w.Delivered x own ∅ w := World.Delivered.refl (h.byLabel hdistinct)
  obtain ⟨hanswers₁, d₁, hreached₁⟩ := d₀.run hstart free fresh correct hchains hfresh hbudget
    distinct order₁ hreaches hnodup hset hsupplied₁
  obtain ⟨hanswers₂, d₂, hreached₂⟩ := d₀.run hstart free fresh correct hchains hfresh hbudget
    distinct order₂ hreaches (hperm.nodup_iff.mp hnodup)
    (fun s hs => hset s (hperm.mem_iff.mpr hs)) hsupplied₂
  -- the two orders have opened the same frames
  have hopened : w.keptOf x (order₂.map Prod.fst) = w.keptOf x (order₁.map Prod.fst) := by
    ext s
    simp only [World.keptOf, Set.mem_ofPred_eq, hperm.mem_iff]
  rw [hopened] at d₂
  have hdistinct₁ := d₁.ratchets_nodup hfresh
  have hdistinct₂ := d₂.ratchets_nodup hfresh
  have h₁ : World.Lockstep P sharedKey .byKey _ :=
    (World.Lockstep.start hstart).reaches free fresh hreached₁
  have h₂ : World.Lockstep P sharedKey .byKey _ :=
    (World.Lockstep.start hstart).reaches free fresh hreached₂
  exact ⟨hanswers₁, hanswers₂, d₁.same_session d₂ (h₁.byLabel hdistinct₁) (h₂.byLabel hdistinct₂)
    distinct hdistinct₁ (World.StoreOrdered.reaches free fresh hstart hreached₁)
    (World.StoreOrdered.reaches free fresh hstart hreached₂)⟩

/-- The first two frames of the initiator arrive in either order. -/
theorem delivery_order_leaves_no_trace_symbolic : ∃ (w : World Symbolic.Letter Nat)
    (s t : Sealing Symbolic.Letter), s ≠ t ∧ s ∈ w.unopened .responder ∧
    t ∈ w.unopened .responder ∧
    (Machine.run (World.step Symbolic.primitives) w
        (World.deliveries .responder [(s, .ok 3), (t, .ok 3)])).1.session .responder
      = (Machine.run (World.step Symbolic.primitives) w
        (World.deliveries .responder [(t, .ok 3), (s, .ok 3)])).1.session .responder := by
  obtain ⟨w₀, w, c⟩ := Symbolic.exists_firstChain 2 (by decide)
  obtain ⟨s, hs, hsNumber⟩ := c.exists_frame (i := 0) (by decide)
  obtain ⟨t, ht, htNumber⟩ := c.exists_frame (i := 1) (by decide)
  have hne : s ≠ t := by
    rintro rfl
    omega
  obtain ⟨hsMem, hsSender, -⟩ := World.mem_sentIn.mp hs
  obtain ⟨htMem, htSender, -⟩ := World.mem_sentIn.mp ht
  have hsUnopened := c.mem_unopened hsMem hsSender
  have htUnopened := c.mem_unopened htMem htSender
  -- the ratchet key that the responder draws is new
  have hfresh : ((3 :: w.ratchets).map (publicKey Symbolic.primitives)).Nodup := by
    rw [c.run.ratchets]
    simp [Symbolic.publicKey_inj]
  have hkept : ∀ u ∈ w.unopened .responder, w.Kept .responder u := fun u hu hpassed =>
    absurd hpassed (c.not_passed (World.mem_unopened.mp hu).1 _)
  -- nothing has been dropped, so any delivery is within the conditions
  have hsupplied : ∀ (v : World Symbolic.Letter Nat) (u : Sealing Symbolic.Letter),
      w.Supplied Symbolic.primitives .responder 3 v (.decrypt .responder u.sealed (.ok 3)) :=
    fun v u u' hu' _ => ⟨fun _ _ => rfl, fun hdropped => absurd (hkept u' hu') hdropped⟩
  have hallowed : ∀ first second : Sealing Symbolic.Letter,
      Machine.Allowed (World.step Symbolic.primitives) (w.Supplied Symbolic.primitives .responder 3)
        w (World.deliveries .responder [(first, .ok 3), (second, .ok 3)]) :=
    fun first second => ⟨hsupplied _ first, hsupplied _ second, trivial⟩
  refine ⟨w, s, t, hne, hsUnopened, htUnopened,
    (delivery_order_leaves_no_trace Symbolic.free Symbolic.fresh Symbolic.correct c.start
      c.run.reaches (c.length_unopened_le.trans (by decide)) hfresh ?_ ?_ ?_ (hallowed s t)
      (hallowed t s)).2.2⟩
  · exact List.Perm.swap t s []
  · exact List.nodup_cons.mpr ⟨by simpa using hne, List.nodup_singleton _⟩
  · intro u hu
    rcases List.mem_cons.mp hu with rfl | hu
    · exact hsUnopened
    · rw [List.mem_singleton.mp hu]
      exact htUnopened

/-- The key of a frame was evicted, and the frame is refused. -/
theorem evicted_frame_refused : ∃ (w₀ w : World Symbolic.Letter Nat) (s : Sealing Symbolic.Letter),
    World.start Symbolic.primitives Symbolic.sharedKey 1 2 = .ok w₀ ∧
    World.Reaches Symbolic.primitives w₀ w ∧ (w.unopened .responder).length ≤ 1000 ∧
    ((7 :: w.ratchets).map (publicKey Symbolic.primitives)).Nodup ∧
    s ∈ w.unopened .responder ∧
    w.Unforged Symbolic.primitives (.decrypt .responder s.sealed (.ok 7)) ∧
    (w.step Symbolic.primitives (.decrypt .responder s.sealed (.ok 7))).2
      ≠ .opened (.ok s.plaintext) := by
  obtain ⟨w₀, w, s, hstart, hreaches, hfresh, hbudget, hs, hdropped⟩ := Symbolic.exists_evicted
  have h : World.Lockstep Symbolic.primitives Symbolic.sharedKey .byKey w :=
    (World.Lockstep.start hstart).reaches Symbolic.free Symbolic.fresh hreaches
  have hdistinct : (w.ratchets.map (publicKey Symbolic.primitives)).Nodup :=
    (List.nodup_cons.mp hfresh).2
  have hunforged := Symbolic.unforged_of_genuine h (World.mem_unopened.mp hs).1 .responder (.ok 7)
  obtain ⟨failure, hrefused⟩ :=
    h.refused_of_dropped Symbolic.free Symbolic.fresh hdistinct hs hdropped hunforged
  refine ⟨w₀, w, s, hstart, hreaches, hbudget, hfresh, hs, hunforged, ?_⟩
  rw [hrefused]
  intro heq
  cases heq

end Quietwire
