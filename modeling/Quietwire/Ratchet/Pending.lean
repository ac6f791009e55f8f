/-
  Quietwire.Ratchet.Pending

  What the store of skipped keys holds, when the peer is honest: the keys of frames
  that the peer sealed, that the receiving chains have passed and that were not
  opened; all of them, but for those that one of the two rules evicted.
-/
import Quietwire.Ratchet.Accounted
import Quietwire.Ratchet.StoreBounds

namespace Quietwire

open Eviction

variable {α σ : Type} [DecidableEq α]

/-! ## Evictions -/

namespace SkippedKeys

/-- The entries that the two rules remove when keys are inserted. -/
def evictedBy (self : SkippedKeys α) (ratchet : PublicKey α) (keys : List (UInt32 × Key α)) :
    SkippedKeys α :=
  evicted (inChain ratchet) 1000 (self ++ entries ratchet keys) ++
    evicted (fun _ => true) 10000
      (keepNewest (inChain ratchet) 1000 (self ++ entries ratchet keys))

variable (self : SkippedKeys α) (ratchet : PublicKey α) (keys : List (UInt32 × Key α))

/-- An insertion keeps or evicts each entry. -/
theorem perm_evictedBy_append_extend :
    (self.evictedBy ratchet keys ++ self.extend ratchet keys).Perm
      (self ++ entries ratchet keys) := by
  rw [extend_eq_insertBounded, evictedBy, insertBounded, List.append_assoc]
  exact ((perm_evicted_append_keepNewest _ _ _).append_left _).trans
    (perm_evicted_append_keepNewest _ _ _)

theorem mem_extend_or_evictedBy {e : SkippedKey α} (he : e ∈ self ++ entries ratchet keys) :
    e ∈ self.extend ratchet keys ∨ e ∈ self.evictedBy ratchet keys := by
  rw [← (perm_evictedBy_append_extend self ratchet keys).mem_iff, List.mem_append] at he
  exact he.symm

end SkippedKeys

variable [Octet α] (P : Primitives α σ)

namespace Session

/-- What is evicted when the receiving chain is closed. -/
def evictedClosing (s : Session α σ) (header : Header α) : SkippedKeys α :=
  match s.receiving, s.remoteRatchet with
  | some chain, some remote =>
    s.skipped.evictedBy remote (messageKeysFrom P chain.key chain.next.toNat
      (header.previousChainLen.toNat - chain.next.toNat))
  | _, _ => []

/-- What is evicted when a receiving chain that stands at `chain` moves on past the frame with
    this header. -/
def evictedAdvancing (s : Session α σ) (header : Header α) (chain : Chain α) : SkippedKeys α :=
  s.skipped.evictedBy header.ratchet (messageKeysFrom P chain.key chain.next.toNat
    (header.messageNumber.toNat - chain.next.toNat))

/-- What is evicted when the frame with this header opens. -/
def evictions (s : Session α σ) (header : Header α) : SkippedKeys α :=
  match s.skipped.position header with
  | some _ => []
  | none =>
    if s.remoteRatchet = some header.ratchet then
      match s.receiving with
      | none => []
      | some chain => s.evictedAdvancing P header chain
    else
      match kdfRoot P s.rootKey s.ownRatchet header.ratchet with
      | .error _ => []
      | .ok (_, receiving) =>
        s.evictedClosing P header ++
          { s with skipped := s.closePrevious P header }.evictedAdvancing P header
            { key := receiving, next := 0 }

variable {P}

theorem mem_advance_or_evicted {s : Session α σ} {header : Header α} {chain : Chain α}
    {e : SkippedKey α} (he : e ∈ s.skipped ++ overtaken P header chain) :
    e ∈ (s.advanceReceiving P header chain).skipped ∨ e ∈ s.evictedAdvancing P header chain :=
  SkippedKeys.mem_extend_or_evictedBy _ _ _ he

theorem mem_close_or_evicted {s : Session α σ} {header : Header α} {e : SkippedKey α} :
    e ∈ s.skipped ++ s.missing P header →
      e ∈ s.closePrevious P header ∨ e ∈ s.evictedClosing P header := by
  rw [missing, closePrevious, evictedClosing]
  cases s.receiving with
  | none =>
    show e ∈ s.skipped ++ [] → e ∈ s.skipped ∨ e ∈ []
    rw [List.append_nil]
    exact .inl
  | some chain =>
    cases s.remoteRatchet with
    | none =>
      show e ∈ s.skipped ++ [] → e ∈ s.skipped ∨ e ∈ []
      rw [List.append_nil]
      exact .inl
    | some remote => exact SkippedKeys.mem_extend_or_evictedBy _ _ _

theorem evictions_current {s : Session α σ} {header : Header α} {chain : Chain α}
    (hmissing : s.skipped.position header = none) (hremote : s.remoteRatchet = some header.ratchet)
    (hreceiving : s.receiving = some chain) :
    s.evictions P header = s.evictedAdvancing P header chain := by
  rw [evictions, hmissing, hreceiving]
  exact if_pos hremote

theorem evictions_step {s : Session α σ} {header : Header α} {root : SecretKey α}
    {receiving : Key α} (hmissing : s.skipped.position header = none)
    (hremote : s.remoteRatchet ≠ some header.ratchet)
    (hkeys : kdfRoot P s.rootKey s.ownRatchet header.ratchet = .ok (root, receiving)) :
    s.evictions P header = s.evictedClosing P header ++
      { s with skipped := s.closePrevious P header }.evictedAdvancing P header
        { key := receiving, next := 0 } := by
  rw [evictions, hmissing, hkeys]
  exact if_neg hremote

end Session

/-! ## Runs -/

namespace World

/-- On the way from `w₀` to `w`, the party `x` has opened a frame, and one of the two rules has
    removed the entry `e` from its store. -/
def Evicted (w₀ w : World α σ) (x : Party) (e : SkippedKey α) : Prop :=
  ∃ (v : World α σ) (sealed : SealedFrame α) (generated : Except CryptoError σ)
    (plaintext : Plaintext α), World.Reaches P w₀ v ∧
    v.Unforged P (.decrypt x sealed generated) ∧
    (v.step P (.decrypt x sealed generated)).2 = .opened (.ok plaintext) ∧
    e ∈ (v.session x).evictions P (Header.parse sealed.frame) ∧
    World.Reaches P (v.step P (.decrypt x sealed generated)).1 w

variable {P} {w₀ w : World α σ} {x : Party} {sharedKey : SecretKey α}

theorem Evicted.tail {e : SkippedKey α} (he : Evicted P w₀ w x e) {event : Event α σ}
    (hunforged : w.Unforged P event) : Evicted P w₀ (w.step P event).1 x e := by
  obtain ⟨v, sealed, generated, plaintext, hbefore, hallowed, hopened, hevicted, hafter⟩ := he
  exact ⟨v, sealed, generated, plaintext, hbefore, hallowed, hopened, hevicted,
    hafter.tail hunforged⟩

variable {lost lost' : Party → SkippedKey α → Prop} {sealed : SealedFrame α}
  {generated : Except CryptoError σ} {plaintext : Plaintext α} {key : Key α} {s' : Session α σ}

/-- Opening a frame keeps the frames accounted for, when what is evicted then is lost. -/
theorem Accounted.opening (h : Lockstep P sharedKey .byKey w) (free : FreeKdf P)
    (fresh : FreshSharedKey P sharedKey) (ha : w.Accounted lost)
    (hmono : ∀ y e, lost y e → lost' y e)
    (hunforged : w.Unforged P (.decrypt x sealed generated))
    (run : Session.Decrypted P (w.session x) sealed generated plaintext key s')
    (hlost : ∀ e ∈ (w.session x).evictions P (Header.parse sealed.frame), lost' x e) :
    (if (w.session x).takesStep (Header.parse sealed.frame) then
      w.recordStep s' ⟨x, some key, plaintext, sealed⟩
    else w.recordOpening s' ⟨x, some key, plaintext, sealed⟩).Accounted lost' := by
  have distinct := h.distinct_byKey free fresh
  obtain ⟨t, ht⟩ := hunforged.sealedAs run
  have hheader : Header.parse sealed.frame = t.header := by rw [Sealing.header, ht.sealed_eq]
  cases run with
  | @skipped older newer entry store found first opens =>
    rw [Session.takesStep_of_stored store found first]
    have hentry : entry ∈ (w.session x).skipped := by
      rw [store]
      exact List.mem_append_right _ List.mem_cons_self
    obtain ⟨horigin, hpassed, hstored⟩ := h.origin_skipped free fresh ht hentry rfl
    exact (ha.skipped h distinct store horigin hpassed hstored).mono hmono
  | @current chain missing remote receiving belowLimit notPassed near opens =>
    rw [Session.takesStep_of_remote remote]
    rw [Session.evictions_current missing remote receiving] at hlost
    rw [ht.number_eq] at notPassed
    obtain ⟨horigin, hchain, start, rfl, hahead⟩ :=
      h.origin_current free fresh ht receiving notPassed (by rw [ht.number_eq])
    refine ha.current h distinct hmono horigin hchain hahead fun e he => ?_
    exact (Session.mem_advance_or_evicted he).imp_right (hlost e)
  | @step own middle root receiving sending missing remote closes receivingKeys generated
      sendingKeys near opens =>
    rw [Session.takesStep_of_ne missing remote]
    rw [Session.evictions_step missing remote receivingKeys] at hlost
    rw [hheader] at receivingKeys
    obtain ⟨horigin, hchain, hnext, hahead, hroot⟩ :=
      h.origin_step free fresh ht receivingKeys (by rw [ht.number_eq])
    refine ha.step h distinct hmono horigin hchain hnext hahead hroot sendingKeys
      fun e he => ?_
    -- the chain that is closed first, then the one that is opened
    have hclosed : e ∈ (w.session x).closePrevious P (Header.parse sealed.frame) ++
          Session.overtaken P (Header.parse sealed.frame) (chainAt P receiving 0) ∨
        e ∈ (w.session x).evictedClosing P (Header.parse sealed.frame) := by
      rw [← List.append_assoc, List.mem_append] at he
      rcases he with hold | hnew
      · exact (Session.mem_close_or_evicted hold).imp_left (List.mem_append_left _)
      · exact .inl (List.mem_append_right _ hnew)
    rcases hclosed with hstays | hevicted
    · exact (Session.mem_advance_or_evicted (s := (w.session x).afterStep P
        (Header.parse sealed.frame) own root sending) hstays).imp_right fun hevicted =>
          hlost e (List.mem_append_right _ hevicted)
    · exact .inr (hlost e (List.mem_append_left _ hevicted))

/-- Each call keeps the frames accounted for, and what it evicts is recorded. -/
theorem Accounted.call (h : Lockstep P sharedKey .byKey w) (free : FreeKdf P)
    (fresh : FreshSharedKey P sharedKey) (hreaches : World.Reaches P w₀ w)
    (ha : w.Accounted (Evicted P w₀ w)) {event : Event α σ} (hunforged : w.Unforged P event) :
    (w.step P event).1.Accounted (Evicted P w₀ (w.step P event).1) := by
  have hmono : ∀ y e, Evicted P w₀ w y e → Evicted P w₀ (w.step P event).1 y e :=
    fun y e he => he.tail hunforged
  cases hw : w.step P event with
  | mk w' output =>
    have htransition := w.step_transition (P := P) event
    rw [hw] at htransition hmono
    cases htransition with
    | refusedSealing => exact ha.mono hmono
    | refusedOpening => exact ha.mono hmono
    | sealed run => exact (ha.sealing h run).mono hmono
    | opened run stays =>
      have hafter := ha.opening h free fresh hmono hunforged run fun e he =>
        ⟨w, _, _, _, hreaches, hunforged, by rw [hw], he, by rw [hw]; exact .refl⟩
      rw [stays] at hafter
      exact hafter
    | stepped run steps =>
      have hafter := ha.opening h free fresh hmono hunforged run fun e he =>
        ⟨w, _, _, _, hreaches, hunforged, by rw [hw], he, by rw [hw]; exact .refl⟩
      rw [steps] at hafter
      exact hafter

/-- In every state that a conversation reaches, the frames are accounted for. -/
theorem Accounted.reaches (free : FreeKdf P) (fresh : FreshSharedKey P sharedKey)
    {signedPrekey ownRatchet : σ}
    (hstart : World.start P sharedKey signedPrekey ownRatchet = .ok w₀)
    (hreaches : World.Reaches P w₀ w) : w.Accounted (Evicted P w₀ w) := by
  induction hreaches with
  | refl =>
    intro y s hs
    obtain ⟨-, rfl⟩ := World.start_eq_ok_iff.mp hstart
    cases (mem_unopened.mp hs).1
  | tail hbefore hunforged ih =>
    exact ih.call ((Lockstep.start hstart).reaches free fresh hbefore) free fresh hbefore hunforged

end World

variable {P} {w₀ w : World α σ} {sharedKey : SecretKey α}

/-- The store of skipped keys holds exactly the pending keys.  In every state that a
    conversation reaches, a party's store has no two entries with one ratchet key and number;
    each entry is the key under which the peer sealed that frame, which the party has passed
    and not opened; and of each frame that it has passed and not opened, the store has the
    entry unless one of the two eviction rules removed it. -/
theorem skipped_store_exact (free : FreeKdf P) (fresh : FreshSharedKey P sharedKey)
    {signedPrekey ownRatchet : σ}
    (hstart : World.start P sharedKey signedPrekey ownRatchet = .ok w₀)
    (hreaches : World.Reaches P w₀ w) (hdistinct : (w.ratchets.map (publicKey P)).Nodup)
    (x : Party) :
    ((w.session x).skipped.map fun e => (e.ratchet, e.number)).Nodup ∧
      (∀ e ∈ (w.session x).skipped, ∃ s ∈ w.unopened x, w.StoredFor x e s ∧ w.Passed x s) ∧
      ∀ s ∈ w.unopened x, w.Passed x s →
        ∃ e, w.StoredFor x e s ∧ (e ∈ (w.session x).skipped ∨ World.Evicted P w₀ w x e) := by
  have h : World.Lockstep P sharedKey .byKey w :=
    (World.Lockstep.start hstart).reaches free fresh hreaches
  refine ⟨?_, fun e he => ?_, World.Accounted.reaches free fresh hstart hreaches x⟩
  · -- the label of an entry is made of the two
    have hlabels := (h.byLabel hdistinct).storedOnce x
    have hmap : (w.session x).skipped.map Naming.byLabel.ofEntry
        = ((w.session x).skipped.map fun e => (e.ratchet, e.number)).map
          fun part => Name.label part.1 part.2 := by
      rw [List.map_map]
      rfl
    rw [hmap] at hlabels
    exact hlabels.of_map _
  · obtain ⟨s, hstored, hpassed, hunopened⟩ := h.stored x e he
    rw [← hstored.name_eq .byKey] at hunopened
    exact ⟨s, h.mem_unopened_of_name hdistinct hstored.1 hstored.2.1 hunopened, hstored, hpassed⟩

/-- The initiator's first frame, which the responder has passed, is stored. -/
theorem skipped_store_exact_symbolic : ∃ (w₀ w : World Symbolic.Letter Nat)
    (s : Sealing Symbolic.Letter), s ∈ w.unopened .responder ∧ w.Passed .responder s ∧
    ∃ e, w.StoredFor .responder e s ∧ (e ∈ (w.session .responder).skipped ∨
      World.Evicted Symbolic.primitives w₀ w .responder e) := by
  obtain ⟨o⟩ := Symbolic.exists_overtaking
  obtain ⟨-, -, hkept⟩ := skipped_store_exact Symbolic.free Symbolic.fresh o.start o.talk₃.reaches
    o.talk₃.distinct .responder
  exact ⟨o.w₀, o.w₃, o.a₀, o.unopened₃_a₀, o.passed₃_a₀, hkept o.a₀ o.unopened₃_a₀ o.passed₃_a₀⟩

end Quietwire
