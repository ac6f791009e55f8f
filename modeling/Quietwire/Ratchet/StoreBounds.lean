/-
  Quietwire.Ratchet.StoreBounds

  The two eviction rules of the skipped store in closed form, and the caps they
  keep, whatever the peer sends: an insertion is the old store followed by the new
  keys, without the oldest of the chain beyond 1 000 and then the oldest of all
  beyond 10 000.
-/
import Quietwire.Ratchet.Calls
import Quietwire.Symbolic.Dialogue

namespace Quietwire

open Eviction

variable {α σ : Type} [DecidableEq α]

namespace SkippedKeys

/-! ## The caps -/

/-- The store is within both caps. -/
structure Capped (store : SkippedKeys α) : Prop where
  perChain : ∀ ratchet, store.countP (inChain ratchet) ≤ 1000
  total : store.length ≤ 10000

theorem Capped.nil : Capped ([] : SkippedKeys α) where
  perChain _ := Nat.zero_le _
  total := Nat.zero_le _

theorem Capped.sublist {store store' : SkippedKeys α} (h : Capped store)
    (hsub : store'.Sublist store) : Capped store' where
  perChain ratchet := Nat.le_trans hsub.countP_le (h.perChain ratchet)
  total := Nat.le_trans hsub.length_le h.total

theorem countP_entries_of_ne {ratchet other : PublicKey α} (hne : ratchet ≠ other)
    (keys : List (UInt32 × Key α)) : (entries ratchet keys).countP (inChain other) = 0 := by
  rw [List.countP_eq_zero]
  intro e he
  obtain ⟨entry, -, rfl⟩ := List.mem_map.mp he
  simpa [inChain] using hne

/-- An insertion keeps the store within the caps, for the chain it inserts into and for every
    other. -/
theorem Capped.extend {store : SkippedKeys α} (h : Capped store) (ratchet : PublicKey α)
    (keys : List (UInt32 × Key α)) : Capped (store.extend ratchet keys) where
  perChain other := by
    rw [extend_eq_insertBounded, insertBounded]
    have hsub := keepNewest_sublist (fun _ => true) 10000
      (keepNewest (inChain ratchet) 1000 (store ++ entries ratchet keys))
    apply Nat.le_trans hsub.countP_le
    by_cases hsame : ratchet = other
    · rw [hsame]
      exact countP_keepNewest_le _ _ _
    · -- nothing was added to the other chain
      have hinner := keepNewest_sublist (inChain ratchet) 1000 (store ++ entries ratchet keys)
      apply Nat.le_trans hinner.countP_le
      rw [List.countP_append, countP_entries_of_ne hsame, Nat.add_zero]
      exact h.perChain other
  total := by
    rw [extend_eq_insertBounded, insertBounded, ← List.countP_true]
    exact countP_keepNewest_le _ _ _

/-- A store of one chain only is cut to the share of the chain. -/
theorem length_extend_of_chain {store : SkippedKeys α} {ratchet : PublicKey α}
    (hchain : ∀ e ∈ store, e.ratchet = ratchet) (keys : List (UInt32 × Key α)) :
    (store.extend ratchet keys).length = min 1000 (store.length + keys.length) := by
  have hall : ∀ e ∈ store ++ entries ratchet keys, inChain ratchet e = true := by
    intro e he
    rw [inChain, decide_eq_true_iff]
    rcases List.mem_append.mp he with hold | hnew
    · exact hchain e hold
    · obtain ⟨entry, -, rfl⟩ := List.mem_map.mp hnew
      rfl
  have hkept := keepNewest_sublist (inChain ratchet) 1000 (store ++ entries ratchet keys)
  have hcount := countP_keepNewest (inChain ratchet) 1000 (store ++ entries ratchet keys)
  rw [List.countP_eq_length.mpr hall,
    List.countP_eq_length.mpr fun e he => hall e (hkept.subset he), List.length_append,
    entries_length] at hcount
  rw [extend_eq_insertBounded, insertBounded, ← List.countP_true, countP_keepNewest,
    List.countP_true, hcount]
  omega

end SkippedKeys

variable [Octet α] {P : Primitives α σ}

namespace Session

variable {s s' : Session α σ}

open SkippedKeys

theorem capped_closePrevious (h : Capped s.skipped) (header : Header α) :
    Capped (s.closePrevious P header) := by
  unfold closePrevious
  split
  · exact h.extend _ _
  · exact h

/-- Every path of a successful `decrypt` keeps the store within the caps. -/
theorem Decrypted.capped {sealed : SealedFrame α} {generated : Except CryptoError σ}
    {plaintext : Plaintext α} {key : Key α} (h : Capped s.skipped)
    (run : Decrypted P s sealed generated plaintext key s') : Capped s'.skipped := by
  cases run with
  | @skipped older newer entry store found first opens =>
    rw [store] at h
    exact h.sublist ((List.sublist_cons_self entry newer).append_left older)
  | current missing remote receiving belowLimit notPassed near opens => exact h.extend _ _
  | step missing remote closes receivingKeys generated sendingKeys near opens =>
    exact (capped_closePrevious h _).extend _ _

theorem capped_call (h : Capped s.skipped) (call : Call α σ) :
    Capped (s.call P call).1.skipped := by
  cases hcall : s.call P call with
  | mk s' output =>
    have heffect := s.call_effect (P := P) call
    rw [hcall] at heffect
    cases heffect with
    | refusedSealing => exact h
    | refusedOpening => exact h
    | sealed run =>
      rw [run.after]
      exact h
    | opened run => exact run.capped h

theorem capped_reaches {s₀ : Session α σ} (hstart : Started P s₀) (hreaches : Reaches P s₀ s) :
    Capped s.skipped := by
  refine hreaches.invariant (I := fun t => Capped t.skipped) (fun t call ht _ =>
    capped_call ht call) ?_
  rw [hstart.fresh.2.2.1]
  exact Capped.nil

end Session

/-! ## The insertions of a call -/

/-- The keys inserted into the store at once, for the chain of one ratchet key. -/
abbrev SkippedKeys.Batch (α : Type) := PublicKey α × List (UInt32 × Key α)

namespace Session

open SkippedKeys

variable (P) in
omit [DecidableEq α] in
/-- The keys left in the receiving chain, if there is one, when a frame with this header closes
    it. -/
def closing (s : Session α σ) (header : Header α) : List (Batch α) :=
  match s.receiving, s.remoteRatchet with
  | some chain, some remote => [(remote, messageKeysFrom P chain.key chain.next.toNat
      (header.previousChainLen.toNat - chain.next.toNat))]
  | _, _ => []

variable (P) in
/-- What a `decrypt` inserts that opens a frame with this header and finds no key for it: in the
    current chain the keys before the frame; in a ratchet step the keys left in the chain that
    it closes, and then those before the frame in the new chain. -/
def insertions (s : Session α σ) (header : Header α) : List (Batch α) :=
  if s.remoteRatchet = some header.ratchet then
    match s.receiving with
    | none => []
    | some chain => [(header.ratchet, messageKeysFrom P chain.key chain.next.toNat
        (header.messageNumber.toNat - chain.next.toNat))]
  else
    match kdfRoot P s.rootKey s.ownRatchet header.ratchet with
    | .error _ => []
    | .ok (_, receiving) => s.closing P header ++
        [(header.ratchet, messageKeysFrom P receiving 0 header.messageNumber.toNat)]

variable {s s' : Session α σ}

theorem closePrevious_eq_foldl (s : Session α σ) (header : Header α) : s.closePrevious P header
    = (s.closing P header).foldl (fun store batch => store.extend batch.1 batch.2) s.skipped := by
  rw [closePrevious, closing]
  cases s.receiving with
  | none => rfl
  | some chain =>
    cases s.remoteRatchet with
    | none => rfl
    | some remote => rfl

omit [DecidableEq α] in
/-- A chain that may be closed is closed by keys with increasing numbers. -/
theorem pairwise_closing {header : Header α} (closes : ∀ chain, s.receiving = some chain →
      header.previousChainLen.toNat ≤ 2000 ∧
        header.previousChainLen.toNat - chain.next.toNat ≤ 1000) :
    ∀ batch ∈ s.closing P header, (batch.2.map Prod.fst).Pairwise (· < ·) := by
  intro batch hbatch
  unfold closing at hbatch
  split at hbatch
  · rename_i chain remote hreceiving hremote
    rw [List.mem_singleton.mp hbatch]
    have hle := (closes chain hreceiving).1
    exact pairwise_messageKeysFrom P _ (by omega)
  · cases hbatch

section Opened

variable {sealed : SealedFrame α} {generated : Except CryptoError σ} {plaintext : Plaintext α}
  {key : Key α}

/-- The frame of a stored key takes its entry out of the store. -/
theorem Decrypted.skipped_of_position
    (run : Decrypted P s sealed generated plaintext key s') {index : Nat}
    (hposition : s.skipped.position (Header.parse sealed.frame) = some index) :
    s'.skipped = s.skipped.eraseIdx index := by
  cases run with
  | @skipped older newer entry store found first opens =>
    rw [position_of_first store found first] at hposition
    obtain rfl := Option.some.inj hposition
    rw [store]
    exact (remove_append_cons older newer entry).symm
  | current missing remote receiving belowLimit notPassed near opens =>
    rw [missing] at hposition
    cases hposition
  | step missing remote closes receivingKeys generated sendingKeys near opens =>
    rw [missing] at hposition
    cases hposition

/-- Any other frame makes its insertions, and each is of keys with increasing numbers. -/
theorem Decrypted.skipped_of_missing (run : Decrypted P s sealed generated plaintext key s')
    (hmissing : s.skipped.position (Header.parse sealed.frame) = none) :
    s'.skipped = (s.insertions P (Header.parse sealed.frame)).foldl
        (fun store batch => store.extend batch.1 batch.2) s.skipped ∧
      ∀ batch ∈ s.insertions P (Header.parse sealed.frame),
        (batch.2.map Prod.fst).Pairwise (· < ·) := by
  cases run with
  | skipped store found first opens =>
    rw [position_of_first store found first] at hmissing
    cases hmissing
  | @current chain missing remote receiving belowLimit notPassed near opens =>
    have hinsertions : s.insertions P (Header.parse sealed.frame)
        = [((Header.parse sealed.frame).ratchet, messageKeysFrom P chain.key chain.next.toNat
          ((Header.parse sealed.frame).messageNumber.toNat - chain.next.toNat))] := by
      rw [insertions, if_pos remote, receiving]
    rw [hinsertions]
    refine ⟨rfl, fun batch hbatch => ?_⟩
    rw [List.mem_singleton.mp hbatch]
    exact pairwise_messageKeysFrom P _ (.inr (by omega))
  | @step own middle root receiving sending missing remote closes receivingKeys generated
      sendingKeys near opens =>
    have hinsertions : s.insertions P (Header.parse sealed.frame)
        = s.closing P (Header.parse sealed.frame) ++ [((Header.parse sealed.frame).ratchet,
          messageKeysFrom P receiving 0 (Header.parse sealed.frame).messageNumber.toNat)] := by
      rw [insertions, if_neg remote, receivingKeys]
    rw [hinsertions]
    refine ⟨?_, fun batch hbatch => ?_⟩
    · -- the old chain is closed before anything is inserted for the new one
      rw [List.foldl_append, ← closePrevious_eq_foldl]
      rfl
    · rcases List.mem_append.mp hbatch with hold | hnew
      · exact pairwise_closing closes batch hold
      · rw [List.mem_singleton.mp hnew]
        exact pairwise_messageKeysFrom P _ (.inr (by omega))

end Opened

theorem skipped_call_encrypt (random : Option (Nonce α)) (plaintext : Plaintext α) :
    (s.call P (.encrypt random plaintext)).1.skipped = s.skipped := by
  cases hcall : s.call P (.encrypt random plaintext) with
  | mk s' output =>
    have heffect := s.call_effect (P := P) (.encrypt random plaintext)
    rw [hcall] at heffect
    cases heffect with
    | refusedSealing => rfl
    | sealed run => rw [run.after]

/-- What `call` says of a `decrypt`, the path it took. -/
theorem decrypt_call {sealed : SealedFrame α} {random : Option σ}
    {output : Except Failure (Plaintext α)}
    (hcall : s.call P (.decrypt sealed random) = (s', .opened output)) :
    (∃ failure, output = .error failure ∧ s' = s) ∨
      ∃ plaintext key, output = .ok plaintext ∧
        Decrypted P s sealed (rngFill random) plaintext key s' := by
  have heffect := s.call_effect (P := P) (.decrypt sealed random)
  rw [hcall] at heffect
  cases heffect with
  | refusedOpening => exact .inl ⟨_, rfl, rfl⟩
  | opened run => exact .inr ⟨_, _, rfl, run⟩

end Session

/-- The skipped store against any peer: in every state that calls on arbitrary frames reach,
    it holds at most 1 000 entries for any one ratchet key and at most 10 000 in all.  An
    `encrypt` and a `decrypt` that is refused leave it as it is; a `decrypt` that returns a
    plaintext takes the entry of the frame out, or it makes exactly the insertions of the
    frame, one after the other, each of keys with increasing numbers and by the two rules. -/
theorem skipped_store_capped {s₀ s : Session α σ} (hstart : s₀.Started P)
    (hreaches : Session.Reaches P s₀ s) :
    (∀ ratchet, s.skipped.countP (fun e => e.ratchet = ratchet) ≤ 1000) ∧
    s.skipped.length ≤ 10000 ∧
    (∀ (store : SkippedKeys α) ratchet keys,
      store.extend ratchet keys = store.insertBounded ratchet keys) ∧
    (∀ random plaintext, (s.call P (.encrypt random plaintext)).1.skipped = s.skipped) ∧
    (∀ sealed random failure s',
      s.call P (.decrypt sealed random) = (s', .opened (.error failure)) →
      s'.skipped = s.skipped) ∧
    ∀ sealed random plaintext s',
      s.call P (.decrypt sealed random) = (s', .opened (.ok plaintext)) →
      (∀ index, s.skipped.position (Header.parse sealed.frame) = some index →
        s'.skipped = s.skipped.eraseIdx index) ∧
      (s.skipped.position (Header.parse sealed.frame) = none →
        s'.skipped = (s.insertions P (Header.parse sealed.frame)).foldl
          (fun store batch => store.extend batch.1 batch.2) s.skipped ∧
        s'.skipped = (s.insertions P (Header.parse sealed.frame)).foldl
          (fun store batch => store.insertBounded batch.1 batch.2) s.skipped ∧
        ∀ batch ∈ s.insertions P (Header.parse sealed.frame),
          (batch.2.map Prod.fst).Pairwise (· < ·)) := by
  have hcapped := Session.capped_reaches hstart hreaches
  refine ⟨hcapped.perChain, hcapped.total, SkippedKeys.extend_eq_insertBounded,
    Session.skipped_call_encrypt, fun sealed random failure s' hcall => ?_,
    fun sealed random plaintext s' hcall => ?_⟩
  · rcases Session.decrypt_call hcall with ⟨-, -, rfl⟩ | ⟨plaintext, key, heq, -⟩
    · rfl
    · cases heq
  · rcases Session.decrypt_call hcall with ⟨failure, heq, -⟩ | ⟨opened, key, -, run⟩
    · cases heq
    refine ⟨fun index hposition => run.skipped_of_position hposition, fun hmissing => ?_⟩
    obtain ⟨hstore, hincreasing⟩ := run.skipped_of_missing hmissing
    refine ⟨hstore, ?_, hincreasing⟩
    simp only [SkippedKeys.extend_eq_insertBounded] at hstore
    exact hstore

/-- In a session that opens the second frame of a chain before the first: the key of the first
    is inserted, and taken out when that frame arrives. -/
theorem skipped_store_capped_symbolic : ∃ (s₀ s₁ s₂ s₃ : Session Symbolic.Letter Nat)
    (first second : SealedFrame Symbolic.Letter) (index : Nat),
    s₀.Started Symbolic.primitives ∧ Session.Reaches Symbolic.primitives s₀ s₁ ∧
    s₁.call Symbolic.primitives (.decrypt second (some 3))
      = (s₂, .opened (.ok Symbolic.plaintext)) ∧
    s₂.skipped = (s₁.insertions Symbolic.primitives (Header.parse second.frame)).foldl
      (fun store batch => store.insertBounded batch.1 batch.2) s₁.skipped ∧
    s₂.skipped ≠ [] ∧ s₂.skipped.length ≤ 10000 ∧
    s₂.call Symbolic.primitives (.decrypt first (some 4))
      = (s₃, .opened (.ok Symbolic.plaintext)) ∧
    s₂.skipped.position (Header.parse first.frame) = some index ∧
    s₃.skipped = s₂.skipped.eraseIdx index := by
  obtain ⟨o⟩ := Symbolic.exists_overtaking
  obtain ⟨e, he, hstored⟩ := o.stored₃_a₀
  obtain ⟨v, hlate, -⟩ := o.talk₃.receives o.unopened₃_a₀ 4 (by decide)
  have hstarted := World.started_of_start o.start .responder
  have hreaches₂ := World.session_reaches o.talk₂.reaches .responder
  have hreaches₃ := World.session_reaches o.talk₃.reaches .responder
  have hfirst := World.call_of_opened o.receives_a₁.call
  have hsecond := World.call_of_opened hlate.call
  rw [o.seals_a₁.plaintext] at hfirst
  rw [o.seals_a₀.plaintext] at hsecond
  obtain ⟨index, hposition⟩ := hstored.exists_position he
  obtain ⟨-, -, -, -, -, hinserts⟩ := skipped_store_capped hstarted hreaches₂
  obtain ⟨-, htotal, -, -, -, hremoves⟩ := skipped_store_capped hstarted hreaches₃
  obtain ⟨-, hinserted, -⟩ := (hinserts _ _ _ _ hfirst).2 o.position₂_a₁
  exact ⟨_, _, _, _, _, _, index, hstarted, hreaches₂, hfirst, hinserted, List.ne_nil_of_mem he,
    htotal, hsecond, hposition, (hremoves _ _ _ _ hsecond).1 index hposition⟩

end Quietwire
