/-
  Quietwire.Ratchet.KeyUse

  Every message key seals at most one frame, over both directions, all chains and
  all ratchet steps of a conversation; and conversations that started from
  different shared keys have no message key in common.

  Both follow from the key schedule: a message key tells the shared key, the era
  and the number that it was derived from.
-/
import Quietwire.Ratchet.Reachable
import Quietwire.Symbolic.Dialogue

namespace Quietwire

variable {α σ : Type} [Octet α] {P : Primitives α σ} {sharedKey sharedKey' : SecretKey α}
  {naming : Naming}

/-! ## What a key tells about the shared key -/

/-- A root key tells the shared key that it was derived from. -/
theorem FreeKdf.sharedKey_eq (free : FreeKdf P) (fresh : FreshSharedKey P sharedKey)
    (fresh' : FreshSharedKey P sharedKey') {era era' : List σ}
    (h : rootKeyOf P sharedKey era = rootKeyOf P sharedKey' era') : sharedKey = sharedKey' := by
  -- both derivations are undone from their ends; neither shared key is an output on the way
  induction era generalizing era' with
  | nil =>
    have hnil : rootKeyOf P sharedKey ([] : List σ) = sharedKey := rfl
    rw [hnil] at h
    rcases era_cases era' with hshort | ⟨own, remote, rest, rfl⟩
    · rw [h, rootKeyOf_of_length_le P _ hshort]
    · exact absurd h (fresh _ _)
  | cons own era ih =>
    rcases era_cases (own :: era) with hshort | ⟨own, remote, rest, heq⟩
    · rw [rootKeyOf_of_length_le P _ hshort] at h
      rcases era_cases era' with hshort' | ⟨own, remote, rest, rfl⟩
      · rw [h, rootKeyOf_of_length_le P _ hshort']
      · exact absurd h (fresh _ _)
    · cases heq
      rw [rootKeyOf_cons_cons] at h
      rcases era_cases era' with hshort' | ⟨own', remote', rest', rfl⟩
      · rw [rootKeyOf_of_length_le P _ hshort'] at h
        exact absurd h.symm (fresh' _ _)
      · rw [rootKeyOf_cons_cons] at h
        exact ih (free.root_inj _ _ _ _ h).1

/-- So does a message key. -/
theorem FreeKdf.sharedKey_eq_of_messageKeyOf (free : FreeKdf P)
    (fresh : FreshSharedKey P sharedKey) (fresh' : FreshSharedKey P sharedKey')
    {era era' : List σ} {n n' : Nat} {key : Key α}
    (h : messageKeyOf P sharedKey era n = some key)
    (h' : messageKeyOf P sharedKey' era' n' = some key) : sharedKey = sharedKey' := by
  obtain ⟨own, remote, rest, -, hkey⟩ := messageKeyOf_eq_some P h
  obtain ⟨own', remote', rest', -, hkey'⟩ := messageKeyOf_eq_some P h'
  obtain ⟨⟨hroot, -⟩, -⟩ := free.messageKeyAt_inj (hkey.symm.trans hkey')
  exact free.sharedKey_eq fresh fresh' hroot

namespace World

variable {w : World α σ}

omit [Octet α] in
/-- A call of one of the two sessions has sealed or opened a frame under `key`. -/
def Used (w : World α σ) (key : Key α) : Prop :=
  (∃ s ∈ w.sealings, s.key = some key) ∨ ∃ x, ∃ o ∈ w.openedBy x, o.key = some key

omit [Octet α] in
/-- One of the two sessions holds `key` for a frame that has not arrived. -/
def Stored (w : World α σ) (key : Key α) : Prop :=
  ∃ x, ∃ e ∈ (w.session x).skipped, e.key = key

section KeySchedule

variable (h : Lockstep P sharedKey naming w)

include h

/-- Whatever a session uses or stores is a key that a frame was sealed under. -/
theorem Lockstep.exists_sealing_of_used {key : Key α} (hkey : w.Used key ∨ w.Stored key) :
    ∃ s ∈ w.sealings, s.key = some key := by
  rcases hkey with (hsealed | ⟨x, o, ho, hkey⟩) | ⟨x, e, he, rfl⟩
  · exact hsealed
  · obtain ⟨s, hs, -, hsKey, -⟩ := h.opened x o ho
    exact ⟨s, hs, hsKey.trans hkey⟩
  · obtain ⟨s, ⟨hs, -, hsKey, -⟩, -⟩ := h.stored x e he
    exact ⟨s, hs, hsKey⟩

/-- And so it is a message key of the key schedule. -/
theorem Lockstep.messageKeyOf_of_used {key : Key α} (hkey : w.Used key ∨ w.Stored key) :
    ∃ era n, messageKeyOf P sharedKey era n = some key := by
  obtain ⟨s, hs, hsKey⟩ := h.exists_sealing_of_used hkey
  exact ⟨_, _, (h.genuine s hs).key.symm.trans hsKey⟩

end KeySchedule

/-! ## Every call has its own key and header -/

section Distinct

variable (h : Lockstep P sharedKey naming w)

include h

/-- No call is recorded twice. -/
theorem Lockstep.nodup_sealings : w.sealings.Nodup := by
  rw [List.nodup_iff_sublist]
  intro s hpair
  -- a repetition would be one within the chain of the frame, whose numbers do not repeat
  have hchain := hpair.filter fun t => decide (t.sender = s.sender ∧ t.chain = s.chain)
  rw [List.filter_cons_of_pos (by simp), List.filter_cons_of_pos (by simp), List.filter_nil]
    at hchain
  have hnumbers := (hchain.map Sealing.number).nodup (by
    show ((w.sentIn s.sender s.chain).map Sealing.number).Nodup
    rw [h.numbered]
    exact List.nodup_reverse.mpr List.nodup_range)
  simp at hnumbers

/-- The message keys of all `encrypt` calls are different. -/
theorem Lockstep.nodup_keys (free : FreeKdf P) (fresh : FreshSharedKey P sharedKey) :
    (w.sealings.map Sealing.key).Nodup := by
  apply List.Nodup.map_on _ h.nodup_sealings
  intro s hs t ht hkey
  exact h.sealing_unique free fresh hs ht hkey

/-- With distinct ratchet keys, the header of a frame tells the call that sealed it. -/
theorem Lockstep.sealing_eq_of_label (hdistinct : (w.ratchets.map (publicKey P)).Nodup)
    {s t : Sealing α} (hs : s ∈ w.sealings) (ht : t ∈ w.sealings)
    (hratchet : s.header.ratchet = t.header.ratchet)
    (hnumber : s.header.messageNumber = t.header.messageNumber) : s = t := by
  have hsGenuine := h.genuine s hs
  have htGenuine := h.genuine t ht
  have hheads : (w.eraOf s.sender s.chain).head?.map (publicKey P)
      = (w.eraOf t.sender t.chain).head?.map (publicKey P) := by
    rw [hsGenuine.ratchet, htGenuine.ratchet, hratchet]
  have hlen := h.eraLen_of_ratchet hdistinct hsGenuine.chain_le htGenuine.chain_le
    hsGenuine.chain_pos hheads
  have hsender := (Party.eraLen_inj hlen).1
  apply h.distinct_byLabel hdistinct s hs t ht hsender
  show Name.label _ _ = Name.label _ _
  rw [hratchet, hnumber]

/-- The headers of all `encrypt` calls are different. -/
theorem Lockstep.nodup_labels (hdistinct : (w.ratchets.map (publicKey P)).Nodup) :
    (w.sealings.map fun s => (s.header.ratchet, s.header.messageNumber)).Nodup := by
  apply List.Nodup.map_on _ h.nodup_sealings
  intro s hs t ht hlabel
  obtain ⟨hratchet, hnumber⟩ := Prod.mk.inj hlabel
  exact h.sealing_eq_of_label hdistinct hs ht hratchet hnumber

end Distinct

end World

variable [DecidableEq α]

/-- Every message key seals at most one frame.  In every run of an honest pair the keys of
    all `encrypt` calls of both sessions are different, and so are the ratchet keys and
    numbers in their headers when the ratchet keys drawn are; and no key that one pair uses
    or stores is ever used by a pair that started from another shared key. -/
theorem message_keys_seal_once (free : FreeKdf P) (fresh : FreshSharedKey P sharedKey)
    {signedPrekey ownRatchet : σ} {w₀ w : World α σ}
    (hstart : World.start P sharedKey signedPrekey ownRatchet = .ok w₀)
    (hreaches : World.Reaches P w₀ w) :
    (w.sealings.map Sealing.key).Nodup ∧
    ((w.ratchets.map (publicKey P)).Nodup →
      (w.sealings.map fun s => (s.header.ratchet, s.header.messageNumber)).Nodup) ∧
    ∀ (sharedKey' : SecretKey α) (signedPrekey' ownRatchet' : σ) (w₀' w' : World α σ),
      FreshSharedKey P sharedKey' → sharedKey ≠ sharedKey' →
      World.start P sharedKey' signedPrekey' ownRatchet' = .ok w₀' → World.Reaches P w₀' w' →
      ∀ key, w.Used key ∨ w.Stored key → ¬ w'.Used key := by
  have h := (World.Lockstep.start hstart).reaches free fresh hreaches
  refine ⟨h.nodup_keys free fresh, h.nodup_labels, ?_⟩
  intro sharedKey' signedPrekey' ownRatchet' w₀' w' fresh' hne hstart' hreaches' key hkey hkey'
  have h' := (World.Lockstep.start hstart').reaches free fresh' hreaches'
  obtain ⟨era, n, hderived⟩ := h.messageKeyOf_of_used hkey
  obtain ⟨era', n', hderived'⟩ := h'.messageKeyOf_of_used (.inl hkey')
  exact hne (free.sharedKey_eq_of_messageKeyOf fresh fresh' hderived hderived')

/-- In a dialogue of five frames, and beside it a conversation from another shared key in which
    a frame was sealed and opened as well. -/
theorem message_keys_seal_once_symbolic : ∃ (d : Symbolic.Dialogue)
    (w : World Symbolic.Letter Nat),
    d.w₈.sealings = [d.a₃, d.a₂, d.b₀, d.a₁, d.a₀] ∧
    ([d.a₃, d.a₂, d.b₀, d.a₁, d.a₀].map Sealing.key).Nodup ∧
    ([d.a₃, d.a₂, d.b₀, d.a₁, d.a₀].map fun s =>
      (s.header.ratchet, s.header.messageNumber)).Nodup ∧
    w.openedBy .responder ≠ [] ∧ ∀ key, d.w₈.Used key ∨ d.w₈.Stored key → ¬ w.Used key := by
  obtain ⟨d⟩ := Symbolic.exists_dialogue
  obtain ⟨w₀, w, hstart, hreaches, -, hopened⟩ :=
    Symbolic.exists_exchange (Vector.replicate 32 (.byte 8))
  have hne : Symbolic.sharedKey ≠ Vector.replicate 32 (.byte 8) := by
    intro heq
    have hfirst := congrArg Vector.head heq
    simp [Symbolic.sharedKey, Vector.head] at hfirst
  obtain ⟨hkeys, hlabels, hothers⟩ :=
    message_keys_seal_once Symbolic.free Symbolic.fresh d.start d.talk₈.reaches
  have hlabels := hlabels d.talk₈.distinct
  rw [d.sealings₈] at hkeys hlabels
  exact ⟨d, w, d.sealings₈, hkeys, hlabels, hopened,
    hothers _ 1 2 w₀ w (Symbolic.fresh_replicate 8) hne hstart hreaches⟩

end Quietwire
