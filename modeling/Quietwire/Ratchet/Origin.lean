/-
  Quietwire.Ratchet.Origin

  Where an opened frame comes from.  While the sessions are in lockstep and the
  AEAD is unforgeable, a frame that opens is one that the peer sealed and that
  was not opened before, on each of the three paths: its key was stored, it is
  ahead in the current receiving chain, or it is in the peer's next chain.
-/
import Quietwire.Ratchet.Lockstep

namespace Quietwire

variable {α σ : Type} [Octet α] {P : Primitives α σ} {sharedKey : SecretKey α}
  {naming : Naming}

/-! ## Lists of skipped keys -/

variable (P) in
theorem mem_messageKeysFrom {key : Key α} {first count : Nat} {entry : UInt32 × Key α} :
    entry ∈ messageKeysFrom P key first count ↔
      ∃ i < count, entry = (UInt32.ofNat (first + i), messageKeyAt P key i) := by
  simp only [messageKeysFrom, List.mem_map, List.mem_range]
  exact exists_congr fun i => and_congr_right fun _ => eq_comm

variable (P) in
/-- A cursor collects keys with increasing numbers. -/
theorem pairwise_numbers (ratchet : PublicKey α) (key : Key α) {first count : Nat}
    (hcount : first + count ≤ 2000) :
    ((SkippedKeys.entries ratchet (messageKeysFrom P key first count)).map
      SkippedKey.number).Pairwise (· < ·) := by
  have hpairs := pairwise_messageKeysFrom P key (.inr hcount)
  rw [List.pairwise_map] at hpairs
  rw [SkippedKeys.entries, List.map_map, List.pairwise_map]
  exact hpairs

variable (P) in
/-- A cursor collects keys with different numbers. -/
theorem nodup_numbers (ratchet : PublicKey α) (key : Key α) {first count : Nat}
    (hcount : first + count ≤ 2000) :
    ((SkippedKeys.entries ratchet (messageKeysFrom P key first count)).map
      SkippedKey.number).Nodup :=
  (pairwise_numbers P ratchet key hcount).imp fun hlt heq => by
    rw [heq, UInt32.lt_iff_toNat_lt] at hlt
    exact Nat.lt_irrefl _ hlt

namespace World

variable {w : World α σ} {x : Party}

/-- Stored keys with different numbers belong to frames with different names. -/
theorem nodup_names (distinct : naming.Distinct w) {entries : SkippedKeys α}
    (hnumbers : (entries.map SkippedKey.number).Nodup)
    (hentries : ∀ e ∈ entries, ∃ s, w.StoredFor x e s) :
    (entries.map naming.ofEntry).Nodup := by
  have hpairs := List.pairwise_map.mp hnumbers
  refine List.pairwise_map.mpr (hpairs.imp_of_mem fun {e f} he hf hne hname => hne ?_)
  obtain ⟨s, hs⟩ := hentries e he
  obtain ⟨t, ht⟩ := hentries f hf
  have hst : s = t := distinct s hs.1 t ht.1 (hs.2.1.trans ht.2.1.symm)
    ((hs.name_eq naming).trans (hname.trans (ht.name_eq naming).symm))
  subst hst
  exact hs.2.2.2.2.symm.trans ht.2.2.2.2

namespace Lockstep

variable (h : Lockstep P sharedKey naming w)

include h

/-- A frame that the receiving chain has not moved past has not been opened. -/
theorem unopened_of_not_passed (distinct : naming.Distinct w) {t : Sealing α}
    (ht : t ∈ w.sealings) (hsender : t.sender = x.peer) (hnot : ¬ w.Passed x t) :
    naming.ofSealing t ∉ w.openedNames naming x := by
  intro hmem
  obtain ⟨o, ho, hname⟩ := List.mem_map.mp hmem
  obtain ⟨s, hs, hsSender, hsKey, hsSealed, -, hpassed⟩ := h.opened x o ho
  have hst : s = t := distinct s hs t ht (hsSender.trans hsender.symm)
    ((naming.ofSealing_eq_ofOpening hsKey hsSealed).trans hname)
  exact hnot (hst ▸ hpassed)

/-- Nor has a frame under its entry in a store. -/
theorem entry_unopened (distinct : naming.Distinct w) {e : SkippedKey α} {s : Sealing α}
    (hstored : w.StoredFor x e s) (hnot : ¬ w.Passed x s) :
    naming.ofEntry e ∉ w.openedNames naming x := by
  rw [← hstored.name_eq naming]
  exact h.unopened_of_not_passed distinct hstored.1 hstored.2.1 hnot

/-- The keys a cursor collects between two positions of one of the peer's chains are
    those of the frames sealed there. -/
theorem storedFor_messageKeysFrom {chain position count : Nat} {start : Key α}
    {ratchet : PublicKey α}
    (hstart : startKeyOf P sharedKey (w.eraOf x.peer chain) = some start)
    (hratchet : (w.eraOf x.peer chain).head?.map (publicKey P) = some ratchet)
    (hcount : position + count ≤ (w.sentIn x.peer chain).length) {e : SkippedKey α}
    (he : e ∈ SkippedKeys.entries ratchet
      (messageKeysFrom P (chainKeyAt P start position) position count)) :
    ∃ s, w.StoredFor x e s ∧ s.chain = chain ∧ position ≤ s.number ∧
      s.number < position + count := by
  obtain ⟨entry, hentry, rfl⟩ := List.mem_map.mp he
  obtain ⟨i, hi, rfl⟩ := (mem_messageKeysFrom P).mp hentry
  -- the i-th of these keys is the key of the i-th frame from `position` on
  have hbelow : position + i < (w.sentIn x.peer chain).length := by omega
  obtain ⟨s, hs, hnumber⟩ := h.exists_number hbelow
  obtain ⟨hmem, hsender, hin⟩ := mem_sentIn.mp hs
  have hgenuine := h.genuine s hmem
  have hkey := hgenuine.key
  have hhead := hgenuine.ratchet
  rw [hsender, hin] at hkey hhead
  refine ⟨s, ⟨hmem, hsender, ?_, ?_, ?_⟩, hin, by omega, by omega⟩
  · rw [hkey, messageKeyOf, hstart, Option.map_some, hnumber, messageKeyAt_add]
  · exact Option.some.inj (hhead.symm.trans hratchet)
  · have hlimit := hgenuine.belowLimit
    apply UInt32.toNat_inj.mp
    rw [toNat_ofNat_of_le (by omega)]
    exact hnumber

/-- The key of a frame sealed between two positions is among those a cursor collects. -/
theorem exists_entry {chain position count : Nat} {start : Key α} {ratchet : PublicKey α}
    (hstart : startKeyOf P sharedKey (w.eraOf x.peer chain) = some start)
    (hratchet : (w.eraOf x.peer chain).head?.map (publicKey P) = some ratchet)
    {s : Sealing α} (hs : s ∈ w.sentIn x.peer chain) (hge : position ≤ s.number)
    (hlt : s.number < position + count) :
    ∃ e ∈ SkippedKeys.entries ratchet
      (messageKeysFrom P (chainKeyAt P start position) position count), w.StoredFor x e s := by
  obtain ⟨hmem, hsender, hin⟩ := mem_sentIn.mp hs
  have hgenuine := h.genuine s hmem
  have hkey := hgenuine.key
  have hhead := hgenuine.ratchet
  have hlimit := hgenuine.belowLimit
  rw [hsender, hin] at hkey hhead
  refine ⟨⟨ratchet, s.header.messageNumber, messageKeyAt P start s.number⟩, ?_,
    hmem, hsender, ?_, Option.some.inj (hhead.symm.trans hratchet), rfl⟩
  · refine List.mem_map.mpr ⟨(s.header.messageNumber, messageKeyAt P start s.number), ?_, rfl⟩
    refine (mem_messageKeysFrom P).mpr ⟨s.number - position, by omega, ?_⟩
    have hsplit : position + (s.number - position) = s.number := by omega
    rw [← messageKeyAt_add, hsplit, Sealing.number, UInt32.ofNat_toNat]
  · rw [hkey, messageKeyOf, hstart, Option.map_some]

/-- Inserting keys of frames that the receiving chain had not moved past keeps the
    store in order. -/
theorem stored_append (distinct : naming.Distinct w) {store added : SkippedKeys α}
    (hstore : store.Sublist ((w.session x).skipped ++ added))
    (hadded : ∀ e ∈ added, ∃ s, w.StoredFor x e s ∧ ¬ w.Passed x s)
    (hnodup : (added.map naming.ofEntry).Nodup) : (store.map naming.ofEntry).Nodup := by
  have hall : (((w.session x).skipped ++ added).map naming.ofEntry).Nodup := by
    rw [List.map_append]
    refine List.Nodup.append (h.storedOnce x) hnodup fun name hold hnew => ?_
    obtain ⟨e, he, rfl⟩ := List.mem_map.mp hold
    obtain ⟨f, hf, hname⟩ := List.mem_map.mp hnew
    obtain ⟨s, hs, hpassed, -⟩ := h.stored x e he
    obtain ⟨t, ht, hnot⟩ := hadded f hf
    have hst : s = t := distinct s hs.1 t ht.1 (hs.2.1.trans ht.2.1.symm)
      ((hs.name_eq naming).trans (hname.symm.trans (ht.name_eq naming).symm))
    exact hnot (hst ▸ hpassed)
  exact hall.sublist (hstore.map _)

end Lockstep

/-! ## The keys that a frame overtakes -/

section Overtaken

variable {t : Sealing α} {header : Header α} {chain position : Nat} {start : Key α}

/-- The frame `t` is at or past `position` in chain number `chain` of the peer of `x`,
    which started from `start`, and `header` is its header. -/
structure Ahead (P : Primitives α σ) (sharedKey : SecretKey α) (w : World α σ) (x : Party)
    (t : Sealing α) (header : Header α) (chain position : Nat) (start : Key α) : Prop where
  mem : t ∈ w.sentIn x.peer chain
  header_eq : t.header = header
  start_eq : startKeyOf P sharedKey (w.eraOf x.peer chain) = some start
  position_le : position ≤ t.number

namespace Ahead

variable (ha : Ahead P sharedKey w x t header chain position start)
  (h : Lockstep P sharedKey naming w)

include ha h

theorem ratchet_eq : (w.eraOf x.peer chain).head?.map (publicKey P) = some header.ratchet := by
  obtain ⟨hmem, hsender, hin⟩ := mem_sentIn.mp ha.mem
  have hratchet := (h.genuine t hmem).ratchet
  rw [hsender, hin, ha.header_eq] at hratchet
  exact hratchet

theorem overtaken_eq : Session.overtaken P header (chainAt P start position)
    = SkippedKeys.entries header.ratchet (messageKeysFrom P (chainKeyAt P start position)
      position (t.number - position)) := by
  have hlimit := (h.genuine t (mem_sentIn.mp ha.mem).1).belowLimit
  have hle := ha.position_le
  have hposition : (chainAt P start position).next.toNat = position :=
    toNat_ofNat_of_le (by omega)
  rw [Session.overtaken, hposition, ← ha.header_eq, chainAt, Sealing.number]

/-- The keys overtaken are those of the frames from `position` up to `t`. -/
theorem storedFor_overtaken {e : SkippedKey α}
    (he : e ∈ Session.overtaken P header (chainAt P start position)) :
    ∃ s, w.StoredFor x e s ∧ s.chain = chain ∧ position ≤ s.number ∧ s.number < t.number := by
  rw [ha.overtaken_eq h] at he
  have hbelow := h.number_lt ha.mem
  have hle := ha.position_le
  obtain ⟨s, hstored, hin, hge, hlt⟩ :=
    h.storedFor_messageKeysFrom ha.start_eq (ha.ratchet_eq h) (by omega) he
  exact ⟨s, hstored, hin, hge, by omega⟩

theorem exists_overtaken {s : Sealing α} (hs : s ∈ w.sentIn x.peer chain)
    (hge : position ≤ s.number) (hlt : s.number < t.number) :
    ∃ e ∈ Session.overtaken P header (chainAt P start position), w.StoredFor x e s := by
  rw [ha.overtaken_eq h]
  exact h.exists_entry ha.start_eq (ha.ratchet_eq h) hs hge (by omega)

theorem nodup_overtaken (distinct : naming.Distinct w) :
    ((Session.overtaken P header (chainAt P start position)).map naming.ofEntry).Nodup := by
  have hlimit := (h.genuine t (mem_sentIn.mp ha.mem).1).belowLimit
  have hle := ha.position_le
  refine nodup_names distinct ?_ fun e he =>
    have ⟨s, hstored, _⟩ := ha.storedFor_overtaken h he
    ⟨s, hstored⟩
  rw [ha.overtaken_eq h]
  exact nodup_numbers P _ _ (by omega)

/-- The receiving chain once `t` was opened in it. -/
theorem receiving_eq (s : Session α σ) [DecidableEq α] :
    (s.advanceReceiving P header (chainAt P start position)).receiving
      = some (chainAt P start (t.number + 1)) := by
  have hlimit := (h.genuine t (mem_sentIn.mp ha.mem).1).belowLimit
  have hle := ha.position_le
  have hnumber : header.messageNumber.toNat = t.number := by
    rw [Sealing.number, ha.header_eq]
  have hposition : (chainAt P start position).next.toNat = position :=
    toNat_ofNat_of_le (by omega)
  have hlast : header.messageNumber + 1 = UInt32.ofNat (t.number + 1) := by
    apply UInt32.toNat_inj.mp
    rw [toNat_ofNat_of_le (by omega), UInt32.toNat_add, hnumber, UInt32.toNat_one]
    omega
  rw [Session.advanceReceiving, hnumber, hposition, hlast]
  simp only [chainAt, ← chainKeyAt_add, Option.some.injEq, Chain.mk.injEq, and_true]
  congr 1
  omega

end Ahead

end Overtaken

/-! ## The three paths -/

/-- The frame of the call `o` is `t`, sealed by the peer and not opened before. -/
structure Origin (w : World α σ) (naming : Naming) (o : Opening α) (t : Sealing α) :
    Prop where
  mem : t ∈ w.sealings
  sender : t.sender = o.receiver.peer
  key_eq : t.key = o.key
  sealed_eq : t.sealed = o.sealed
  plaintext_eq : t.plaintext = o.plaintext
  unopened : naming.ofSealing t ∉ w.openedNames naming o.receiver

theorem Origin.header_eq {o : Opening α} {t : Sealing α} (h : w.Origin naming o t) :
    t.header = Header.parse o.sealed.frame := by
  rw [Sealing.header, h.sealed_eq]

theorem Origin.name_eq {o : Opening α} {t : Sealing α} (h : w.Origin naming o t) :
    naming.ofSealing t = naming.ofOpening o :=
  naming.ofSealing_eq_ofOpening h.key_eq h.sealed_eq

/-- A stored key belongs to another frame than the one that is being opened. -/
theorem StoredFor.name_ne (distinct : naming.Distinct w) {s t : Sealing α} {e : SkippedKey α}
    (hstored : w.StoredFor x e s) (ht : t ∈ w.sealings) (hsender : t.sender = x.peer)
    (hne : s ≠ t) : naming.ofEntry e ≠ naming.ofSealing t := by
  intro heq
  exact hne (distinct s hstored.1 t ht (hstored.2.1.trans hsender.symm)
    ((hstored.name_eq naming).trans heq))

/-- A frame sealed under the key it opened under. -/
structure SealedAs (w : World α σ) (sealed : SealedFrame α) (plaintext : Plaintext α)
    (key : Key α) (t : Sealing α) : Prop where
  mem : t ∈ w.sealings
  key_eq : t.key = some key
  sealed_eq : t.sealed = sealed
  plaintext_eq : t.plaintext = plaintext

theorem SealedAs.number_eq {sealed : SealedFrame α} {plaintext : Plaintext α} {key : Key α}
    {t : Sealing α} (h : w.SealedAs sealed plaintext key t) :
    (Header.parse sealed.frame).messageNumber.toNat = t.number := by
  rw [Sealing.number, Sealing.header, h.sealed_eq]

variable [DecidableEq α] {sealed : SealedFrame α} {generated : Except CryptoError σ}
  {plaintext : Plaintext α} {key : Key α} {s' : Session α σ}

theorem Unforged.sealedAs (hunforged : w.Unforged P (.decrypt x sealed generated))
    (run : Session.Decrypted P (w.session x) sealed generated plaintext key s') :
    ∃ t, w.SealedAs sealed plaintext key t := by
  obtain ⟨t, hmem, hkey, hnonce, haad, hcipher, hplaintext⟩ :=
    hunforged key plaintext run.messageKeyFor run.opens
  exact ⟨t, mem_sealings.mpr hmem, hkey, SealedFrame.ext_parts hnonce haad hcipher, hplaintext⟩

namespace Lockstep

variable (h : Lockstep P sharedKey .byKey w) (free : FreeKdf P)
  (fresh : FreshSharedKey P sharedKey) {t : Sealing α} (ht : w.SealedAs sealed plaintext key t)

include h free fresh ht

omit [DecidableEq α] in
/-- A frame opened with a stored key. -/
theorem origin_skipped {entry : SkippedKey α} (hentry : entry ∈ (w.session x).skipped)
    (hentryKey : entry.key = key) :
    w.Origin .byKey ⟨x, some key, plaintext, sealed⟩ t ∧ w.Passed x t ∧
      w.StoredFor x entry t := by
  obtain ⟨s, hstored, hpassed, hunopened⟩ := h.stored x entry hentry
  have ⟨hs, hsender, hsKey, _⟩ := hstored
  have hst : s = t := h.sealing_unique free fresh hs ht.mem (by rw [hsKey, ht.key_eq, hentryKey])
  subst hst
  rw [← hstored.name_eq .byKey] at hunopened
  exact ⟨⟨ht.mem, hsender, ht.key_eq, ht.sealed_eq, ht.plaintext_eq, hunopened⟩, hpassed, hstored⟩

omit [DecidableEq α] in
/-- A frame opened in the current receiving chain. -/
theorem origin_current {chain : Chain α} (hreceiving : (w.session x).receiving = some chain)
    (hnotPassed : chain.next.toNat ≤ t.number)
    (hkeyAt : key = messageKeyAt P chain.key (t.number - chain.next.toNat)) :
    w.Origin .byKey ⟨x, some key, plaintext, sealed⟩ t ∧ t.chain = w.steps x ∧
      ∃ start, chain = chainAt P start (w.received x) ∧ Ahead P sharedKey w x t
        (Header.parse sealed.frame) (w.steps x) (w.received x) start := by
  obtain ⟨start, hstart, hchain, hnext⟩ := h.receiving_eq hreceiving
  have hcurrent : messageKeyOf P sharedKey (w.eraOf x.peer (w.steps x)) t.number = some key := by
    have hkeyEq : chain.key = chainKeyAt P start (w.received x) := by rw [hchain, chainAt]
    rw [messageKeyOf, hstart, Option.map_some, hkeyAt, hkeyEq, ← messageKeyAt_add]
    congr 2
    omega
  have hgenuine := h.genuine t ht.mem
  obtain ⟨hsender, hchainNumber, -⟩ := h.key_inj free fresh hgenuine.chain_le (h.steps_le x).1
    (hgenuine.key.symm.trans ht.key_eq) hcurrent
  have hnot : ¬ w.Passed x t := World.not_passed_of_le (by omega) (by omega)
  refine ⟨⟨ht.mem, hsender, ht.key_eq, ht.sealed_eq, ht.plaintext_eq,
    h.unopened_of_not_passed (h.distinct_byKey free fresh) ht.mem hsender hnot⟩,
    hchainNumber, start, hchain, ?_⟩
  exact ⟨mem_sentIn.mpr ⟨ht.mem, hsender, hchainNumber⟩, by rw [Sealing.header, ht.sealed_eq],
    hstart, by omega⟩

/-- A frame opened after a ratchet step: the peer is ahead, and the step derives the keys
    of the peer's newest era. -/
theorem origin_step {middle : SecretKey α} {receiving : Key α}
    (hkeys : kdfRoot P (w.session x).rootKey (w.session x).ownRatchet t.header.ratchet
      = .ok (middle, receiving))
    (hkeyAt : key = messageKeyAt P receiving t.number) :
    w.Origin .byKey ⟨x, some key, plaintext, sealed⟩ t ∧ t.chain = w.steps x + 1 ∧
      w.sendingChain x.peer = w.steps x + 1 ∧
      Ahead P sharedKey w x t (Header.parse sealed.frame) (w.steps x + 1) 0 receiving ∧
      rootKeyOf P sharedKey w.ratchets = middle := by
  have hgenuine := h.genuine t ht.mem
  obtain ⟨own, remote, rest, hera, htKey⟩ :=
    messageKeyOf_eq_some P (hgenuine.key.symm.trans ht.key_eq)
  obtain ⟨-, rfl, rfl⟩ := (kdfRoot_eq_ok_iff P).mp hkeys
  obtain ⟨⟨hroot, hshared⟩, -⟩ := free.messageKeyAt_inj (hkeyAt.symm.trans htKey)
  -- the two root keys agree, so the eras they belong to are equally long
  have hlen : t.sender.eraLen t.chain = x.peer.eraLen (w.steps x + 1) := by
    have hdepth := free.rootKeyOf_length fresh ((h.synced x).rootKey.symm.trans hroot)
    have hx := h.length_era (Nat.le_refl (w.sendingChain x))
    have ht := h.length_era hgenuine.chain_le
    rw [w.eraLen_next x, ← hx, ← ht, hera]
    rw [(h.synced x).era] at hdepth ⊢
    simp only [List.length_cons, Nat.add_sub_cancel] at hdepth ⊢
    omega
  obtain ⟨hsender, hchain⟩ := Party.eraLen_inj hlen
  have hahead : w.sendingChain x.peer = w.steps x + 1 := by
    have hle := hgenuine.chain_le
    rw [hsender, hchain] at hle
    have := (h.steps_le x).2
    omega
  have hratchets : w.ratchets = own :: remote :: rest := by
    rw [← h.eraOf_next hahead, ← hera, hsender, hchain]
  have hnot : ¬ w.Passed x t := World.not_passed_of_lt (by omega)
  refine ⟨⟨ht.mem, hsender, ht.key_eq, ht.sealed_eq, ht.plaintext_eq,
    h.unopened_of_not_passed (h.distinct_byKey free fresh) ht.mem hsender hnot⟩, hchain, hahead,
    ⟨mem_sentIn.mpr ⟨ht.mem, hsender, hchain⟩, by rw [Sealing.header, ht.sealed_eq], ?_,
      Nat.zero_le _⟩, ?_⟩
  · rw [h.eraOf_next hahead, hratchets, startKeyOf_cons_cons, hroot, hshared]
  · rw [hratchets, rootKeyOf_cons_cons, hroot, hshared]

end Lockstep
end World

end Quietwire
