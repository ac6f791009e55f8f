/-
  Quietwire.Ratchet.Deliverable

  Which genuine frames open.  On each of the three paths, a frame that was not
  opened yet opens to its plaintext as long as no limit is hit.
-/
import Quietwire.Ratchet.Ahead
import Quietwire.Ratchet.Outstanding

namespace Quietwire

variable {α σ : Type} [DecidableEq α] [Octet α] {P : Primitives α σ} {sharedKey : SecretKey α}
  {naming : Naming}

namespace World

variable {w : World α σ} {x : Party} {s : Sealing α}

omit [DecidableEq α] in
theorem Genuine.opens (correct : CorrectPrimitives P) (hs : Genuine P sharedKey w s) :
    ∃ key, s.key = some key ∧ Opens P key s.sealed s.plaintext := by
  obtain ⟨key, hkey, hseal⟩ := hs.sealing
  exact ⟨key, hkey, correct.opens_sealed _ _ _ _ _ hseal⟩

omit [DecidableEq α] in
/-- The ratchet key in the header of a frame is a public key. -/
theorem Lockstep.exists_publicKey (h : Lockstep P sharedKey naming w) (hs : s ∈ w.sealings) :
    ∃ own, s.header.ratchet = publicKey P own := by
  obtain ⟨own, -, hown⟩ := Option.map_eq_some_iff.mp (h.genuine s hs).ratchet
  exact ⟨own, hown.symm⟩

/-- A frame of the peer's next chain has the ratchet key that takes `x` to the newest root key
    and start key. -/
theorem Lockstep.kdfRoot_next (h : Lockstep P sharedKey naming w)
    (hcommute : ∀ a b, P.x25519 a (publicKey P b) = P.x25519 b (publicKey P a))
    (hs : s ∈ w.sealings) (hsender : s.sender = x.peer) (hchain : s.chain = w.steps x + 1) :
    w.sendingChain x.peer = w.steps x + 1 ∧
    ∃ start, startKeyOf P sharedKey w.ratchets = some start ∧
      kdfRoot P (w.session x).rootKey (w.session x).ownRatchet s.header.ratchet
        = .ok (rootKeyOf P sharedKey w.ratchets, start) := by
  have hle := (h.genuine s hs).chain_le
  have hseen := (h.steps_le x).2
  rw [hsender] at hle
  have hnext : w.sendingChain x.peer = w.steps x + 1 := by omega
  have haheadEq := h.ahead_eq hnext
  obtain ⟨start, hstart, hkeys⟩ := h.kdfRoot_behind hcommute
  rw [haheadEq, Party.peer_peer] at hkeys
  have hratchet := (h.genuine s hs).ratchet
  rw [hsender, hchain, h.eraOf_next hnext, h.ratchets_eq_cons_cons, haheadEq, List.head?_cons,
    Option.map_some, Option.some.injEq] at hratchet
  exact ⟨hnext, start, hstart, hratchet ▸ hkeys⟩

/-- Lookup finds an entry for a frame whose key is stored. -/
theorem StoredFor.exists_position {e : SkippedKey α} (he : e ∈ (w.session x).skipped)
    (hstored : w.StoredFor x e s) :
    ∃ index, (w.session x).skipped.position s.header = some index := by
  obtain ⟨-, -, -, hratchet, hnumber⟩ := hstored
  have hfor : SkippedKey.isFor s.header e := by
    simp only [SkippedKey.isFor, decide_eq_true_eq]
    exact ⟨hratchet.symm, hnumber.symm⟩
  cases hposition : (w.session x).skipped.position s.header with
  | none => exact absurd hfor ((SkippedKeys.position_eq_none_iff _ _).mp hposition e he)
  | some index => exact ⟨index, rfl⟩

section Lookup

variable (h : Lockstep P sharedKey naming w) (hdistinct : (w.ratchets.map (publicKey P)).Nodup)
  (hs : s ∈ w.sealings) (hsender : s.sender = x.peer)

include h hdistinct hs hsender

/-- With distinct ratchet keys, the entry that lookup finds for a frame is its own. -/
theorem Lockstep.storedFor_of_isFor {e : SkippedKey α} (he : e ∈ (w.session x).skipped)
    (hfor : SkippedKey.isFor s.header e) : w.StoredFor x e s ∧ w.Passed x s := by
  obtain ⟨t, hstored, hpassed, -⟩ := h.stored x e he
  simp only [SkippedKey.isFor, decide_eq_true_eq] at hfor
  have hts : t = s := by
    refine h.distinct_byLabel hdistinct t hstored.1 s hs (hstored.2.1.trans hsender.symm) ?_
    rw [hstored.name_eq .byLabel, Naming.ofEntry, hfor.1, hfor.2]
    rfl
  exact ⟨hts ▸ hstored, hts ▸ hpassed⟩

/-- Lookup finds nothing for a frame that the receiving chain has not passed. -/
theorem Lockstep.position_eq_none (hnot : ¬ w.Passed x s) :
    (w.session x).skipped.position s.header = none := by
  refine (SkippedKeys.position_eq_none_iff _ _).mpr fun e he hfor => ?_
  exact hnot (h.storedFor_of_isFor hdistinct hs hsender he hfor).2

variable (hunopened : naming.ofSealing s ∉ w.openedNames naming x)

include hunopened

omit [DecidableEq α] h hdistinct in
theorem origin_of_unopened {key : Key α} (hkey : s.key = some key) :
    w.Origin naming ⟨x, some key, s.plaintext, s.sealed⟩ s :=
  ⟨hs, hsender, hkey, rfl, rfl, hunopened⟩

variable (correct : CorrectPrimitives P) (generated : Except CryptoError σ)

include correct

/-- A frame whose key is stored opens. -/
theorem Lockstep.decrypts_stored {e : SkippedKey α} (he : e ∈ (w.session x).skipped)
    (hstored : w.StoredFor x e s) :
    ∃ key s', Session.Decrypted P (w.session x) s.sealed generated s.plaintext key s' ∧
      Opened P sharedKey naming w x s.sealed s.plaintext s key s'
        ((w.session x).takesStep s.header) := by
  obtain ⟨index, hposition⟩ := hstored.exists_position he
  obtain ⟨older, entry, newer, hstore, -, hentryFor, hfirst⟩ :=
    (SkippedKeys.position_eq_some_iff _ _ _).mp hposition
  have hentry : entry ∈ (w.session x).skipped := by
    rw [hstore]
    exact List.mem_append_right _ List.mem_cons_self
  obtain ⟨key, hkey, hopens⟩ := (h.genuine s hs).opens correct
  obtain ⟨hown, hpassed⟩ := h.storedFor_of_isFor hdistinct hs hsender hentry hentryFor
  have hentryKey : key = entry.key := Option.some.inj (hkey.symm.trans hown.2.2.1)
  subst hentryKey
  rw [Session.takesStep_of_stored hstore hentryFor hfirst]
  exact ⟨_, _, .skipped hstore hentryFor hfirst hopens,
    .skipped hstore (origin_of_unopened hs hsender hunopened hkey) hpassed hown⟩

/-- A frame ahead in the current receiving chain opens if at most 1 000 are skipped. -/
theorem Lockstep.decrypts_current (hchain : s.chain = w.steps x)
    (hahead : w.received x ≤ s.number) (hnear : s.number - w.received x ≤ 1000) :
    ∃ key s', Session.Decrypted P (w.session x) s.sealed generated s.plaintext key s' ∧
      Opened P sharedKey naming w x s.sealed s.plaintext s key s'
        ((w.session x).takesStep s.header) := by
  -- the chain that the sender sealed in is the one that the receiver reads
  have hgenuine := h.genuine s hs
  have hnot : ¬ w.Passed x s := World.not_passed_of_le (by omega) (by omega)
  obtain ⟨key, hkey, hopens⟩ := hgenuine.opens correct
  have hkeyOf := hgenuine.key
  have hratchet := hgenuine.ratchet
  rw [hkey, hsender, hchain, messageKeyOf, eq_comm, Option.map_eq_some_iff] at hkeyOf
  rw [hsender, hchain, ← (h.synced x).remote] at hratchet
  obtain ⟨start, hstart, hkeyAt⟩ := hkeyOf
  have hreceiving := (h.synced x).receiving
  rw [hstart, Option.map_some] at hreceiving
  have hlimit := hgenuine.belowLimit
  have hnext : (chainAt P start (w.received x)).next.toNat = w.received x :=
    toNat_ofNat_of_le (by omega)
  -- so the key that the cursor skips to is the key of the frame
  have hkeyEq : messageKeyAt P (chainAt P start (w.received x)).key
      (s.number - (chainAt P start (w.received x)).next.toNat) = key := by
    have hsplit : w.received x + (s.number - w.received x) = s.number := by omega
    rw [hnext, chainAt, ← messageKeyAt_add, hsplit, hkeyAt]
  have hopensAt := hopens
  rw [← hkeyEq] at hopensAt
  rw [Session.takesStep_of_remote hratchet]
  refine ⟨_, _, .current (h.position_eq_none hdistinct hs hsender hnot) hratchet hreceiving
    hlimit ?_ ?_ hopensAt, .current ?_ hchain
      ⟨mem_sentIn.mpr ⟨hs, hsender, hchain⟩, rfl, hstart, hahead⟩⟩
  · rw [hnext]
    exact hahead
  · rw [hnext]
    exact hnear
  · have horigin := origin_of_unopened hs hsender hunopened hkey
    rw [← hkeyEq] at horigin
    exact horigin

/-- A frame of the peer's next chain opens if at most 1 000 frames are missing from the
    current one and at most 1 000 are skipped in the next. -/
theorem Lockstep.decrypts_step (own : σ) (hchain : s.chain = w.steps x + 1)
    (hcloses : (w.sentIn x.peer (w.steps x)).length - w.received x ≤ 1000)
    (hnear : s.number ≤ 1000) :
    ∃ key s', Session.Decrypted P (w.session x) s.sealed (.ok own) s.plaintext key s' ∧
      Opened P sharedKey naming w x s.sealed s.plaintext s key s'
        ((w.session x).takesStep s.header) := by
  have hgenuine := h.genuine s hs
  have hnot : ¬ w.Passed x s := World.not_passed_of_lt (by omega)
  -- the sender is one chain further, so the receiver takes a step
  have hnext : w.sendingChain x.peer = w.steps x + 1 := by
    have hle := hgenuine.chain_le
    have := (h.steps_le x).2
    rw [hsender] at hle
    omega
  have hprevious := hgenuine.previous
  rw [hsender, hchain, Nat.add_sub_cancel] at hprevious
  have hratchet := hgenuine.ratchet
  -- the header names a ratchet key that the receiver does not hold
  have hremote : (w.session x).remoteRatchet ≠ some s.header.ratchet := by
    rw [(h.synced x).remote, ← hratchet, hsender, hchain]
    intro heq
    have hchains := h.chain_of_ratchet hdistinct (Nat.le_of_eq hnext.symm) (h.steps_le x).1
      (Nat.succ_pos _) heq.symm
    omega
  -- the step derives the chain that the sender sealed in
  obtain ⟨-, start, hstart, hkeys⟩ := h.kdfRoot_next correct.commutes hs hsender hchain
  obtain ⟨key, hkey, hopens⟩ := hgenuine.opens correct
  have hkeyOf := hgenuine.key
  rw [hkey, hsender, hchain, h.eraOf_next hnext, messageKeyOf, hstart, Option.map_some,
    Option.some.injEq] at hkeyOf
  have horigin := origin_of_unopened hs hsender hunopened hkey
  rw [hkeyOf] at hopens horigin
  -- no key exchange with a genuine ratchet key comes out as zeros
  have hsending : kdfRoot P (rootKeyOf P sharedKey w.ratchets) own s.header.ratchet
      = .ok ((expandRoot P (rootKeyOf P sharedKey w.ratchets)
          (P.x25519 own s.header.ratchet)).1,
        (expandRoot P (rootKeyOf P sharedKey w.ratchets) (P.x25519 own s.header.ratchet)).2) := by
    rw [kdfRoot_eq_ok_iff]
    refine ⟨?_, rfl, rfl⟩
    obtain ⟨remote, hremoteKey⟩ := h.exists_publicKey hs
    rw [hremoteKey]
    exact correct.contributory _ _
  have hposition := h.position_eq_none hdistinct hs hsender hnot
  rw [Session.takesStep_of_ne hposition hremote]
  refine ⟨_, _, .step hposition hremote (fun chain hc => ?_) hkeys rfl hsending hnear hopens,
    .step horigin hchain hnext ⟨mem_sentIn.mpr ⟨hs, hsender, hchain⟩, rfl, ?_, Nat.zero_le _⟩
      hsending⟩
  -- the chain that is closed has at most a thousand keys left
  · obtain ⟨-, -, -, hreached⟩ := h.receiving_eq hc
    have hlen := h.length_sentIn_le x.peer (w.steps x)
    show s.header.previousChainLen.toNat ≤ 2000 ∧
      s.header.previousChainLen.toNat - chain.next.toNat ≤ 1000
    rw [hprevious, hreached]
    exact ⟨hlen, hcloses⟩
  · rw [h.eraOf_next hnext]
    exact hstart

end Lookup

section Kept

variable (h : Lockstep P sharedKey .byKey w) (free : FreeKdf P)
  (fresh : FreshSharedKey P sharedKey) (hdistinct : (w.ratchets.map (publicKey P)).Nodup)
  (hs : s ∈ w.sealings) (hsender : s.sender = x.peer)

include h free fresh hdistinct hs hsender

/-- What opens a genuine frame opens it as that frame. -/
theorem Lockstep.opening_of_genuine {generated : Except CryptoError σ}
    (hunforged : w.Unforged P (.decrypt x s.sealed generated)) {plaintext : Plaintext α}
    {key : Key α} {s' : Session α σ}
    (run : Session.Decrypted P (w.session x) s.sealed generated plaintext key s') :
    Opened P sharedKey .byKey w x s.sealed plaintext s key s'
      ((w.session x).takesStep s.header) := by
  obtain ⟨t, hopened⟩ := h.opening free fresh hunforged run
  have hts : t = s := by
    refine h.distinct_byLabel hdistinct t hopened.origin.mem s hs
      (hopened.origin.sender.trans hsender.symm) ?_
    rw [Naming.ofSealing, Naming.ofSealing, Sealing.header, Sealing.header,
      hopened.origin.sealed_eq]
  exact hts ▸ hopened

/-- A genuine frame that opens was not passed, or its key is stored. -/
theorem Lockstep.kept_of_decrypted {generated : Except CryptoError σ}
    (hunforged : w.Unforged P (.decrypt x s.sealed generated)) {plaintext : Plaintext α}
    {key : Key α} {s' : Session α σ}
    (run : Session.Decrypted P (w.session x) s.sealed generated plaintext key s') :
    w.Kept x s := by
  intro hpassed
  have hopened := h.opening_of_genuine free fresh hdistinct hs hsender hunforged run
  generalize (w.session x).takesStep s.header = stepped at hopened
  cases hopened with
  | skipped store origin passed stored =>
    refine ⟨_, ?_, stored⟩
    rw [store]
    exact List.mem_append_right _ List.mem_cons_self
  | current origin hcurrent ahead =>
    -- the cursor is past the frame
    exact absurd hpassed (not_passed_of_le hcurrent ahead.position_le)
  | step origin hnext next ahead sendingKeys =>
    exact absurd hpassed (not_passed_of_lt (by omega))

end Kept

/-! ## Frames that have not been passed -/

/-- At most 1 000 frames are missing before `s`: in the chain that `x` receives, or in that
    chain and in the next, each. -/
def InReach (w : World α σ) (x : Party) (s : Sealing α) : Prop :=
  s.chain = w.steps x ∧ s.number - w.received x ≤ 1000 ∨
    s.chain = w.steps x + 1 ∧ s.number ≤ 1000 ∧
      (w.sentIn x.peer (w.steps x)).length - w.received x ≤ 1000

section NotPassed

variable (h : Lockstep P sharedKey naming w) (hdistinct : (w.ratchets.map (publicKey P)).Nodup)
  (hs : s ∈ w.sealings) (hsender : s.sender = x.peer) (hnot : ¬ w.Passed x s)

include h hs hsender hnot

omit [DecidableEq α] in
theorem Lockstep.chain_of_not_passed :
    s.chain = w.steps x ∧ w.received x ≤ s.number ∨ s.chain = w.steps x + 1 := by
  have hle := (h.genuine s hs).chain_le
  have hseen := (h.steps_le x).2
  rw [hsender] at hle
  rw [Passed, not_or] at hnot
  rcases Nat.lt_or_ge (w.steps x) s.chain with hnext | hcurrent
  · exact .inr (by omega)
  · have hchain : s.chain = w.steps x := by
      have := hnot.1
      omega
    exact .inl ⟨hchain, Nat.le_of_not_lt fun hlt => hnot.2 ⟨hchain, hlt⟩⟩

omit [DecidableEq α] hs hsender hnot in
/-- A party that receives no chain is not behind in one. -/
theorem Lockstep.sentIn_eq_nil_of_receiving (hnone : (w.session x).receiving = none) :
    w.sentIn x.peer (w.steps x) = [] := by
  have hstart := (h.synced x).receiving
  rw [hnone, eq_comm, Option.map_eq_none_iff] at hstart
  refine List.eq_nil_iff_forall_not_mem.mpr fun t ht => ?_
  obtain ⟨hmem, htSender, htChain⟩ := mem_sentIn.mp ht
  obtain ⟨key, hkey, -⟩ := (h.genuine t hmem).sealing
  have hkeyOf := (h.genuine t hmem).key
  rw [hkey, htSender, htChain, messageKeyOf, hstart] at hkeyOf
  cases hkeyOf

include hdistinct

/-- A frame that was not passed opens if it is in reach. -/
theorem Lockstep.decrypts_inReach (correct : CorrectPrimitives P) (distinct : naming.Distinct w)
    (hreach : w.InReach x s) (own : σ) :
    ∃ key s', Session.Decrypted P (w.session x) s.sealed (.ok own) s.plaintext key s' ∧
      Opened P sharedKey naming w x s.sealed s.plaintext s key s'
        ((w.session x).takesStep s.header) := by
  have hunopened := h.unopened_of_not_passed distinct hs hsender hnot
  rcases hreach with ⟨hchain, hnear⟩ | ⟨hchain, hnear, hcloses⟩
  · have hahead : w.received x ≤ s.number := Nat.le_of_not_lt fun hlt => hnot (.inr ⟨hchain, hlt⟩)
    exact h.decrypts_current hdistinct hs hsender hunopened correct _ hchain hahead hnear
  · exact h.decrypts_step hdistinct hs hsender hunopened correct own hchain hcloses hnear

/-- A frame that was not passed opens only if it is in reach. -/
theorem Lockstep.inReach_of_decrypted {generated : Except CryptoError σ}
    {plaintext : Plaintext α} {key : Key α} {s' : Session α σ}
    (run : Session.Decrypted P (w.session x) s.sealed generated plaintext key s') :
    w.InReach x s := by
  -- a frame that was not passed has no stored key
  have hposition := h.position_eq_none hdistinct hs hsender hnot
  have hratchet := (h.genuine s hs).ratchet
  rw [hsender] at hratchet
  have hle := (h.genuine s hs).chain_le
  rw [hsender] at hle
  cases run with
  | skipped store found first opens =>
    have hsome := Session.position_of_first store found first
    rw [Sealing.header] at hposition
    rw [hposition] at hsome
    cases hsome
  | @current chain missing remote receiving belowLimit notPassed near opens =>
    -- same ratchet key, same chain: a ratchet key is drawn once
    have hheads : (w.eraOf x.peer s.chain).head?.map (publicKey P)
        = (w.eraOf x.peer (w.steps x)).head?.map (publicKey P) := by
      rw [hratchet, ← (h.synced x).remote, remote, Sealing.header]
    have hchain := h.chain_of_ratchet hdistinct hle (h.steps_le x).1
      (h.genuine s hs).chain_pos hheads
    obtain ⟨-, -, -, hnext⟩ := h.receiving_eq receiving
    rw [hnext] at near
    exact .inl ⟨hchain, near⟩
  | step missing remote closes receivingKeys generated sendingKeys near opens =>
    have hchain : s.chain = w.steps x + 1 := by
      rcases h.chain_of_not_passed hs hsender hnot with ⟨hcurrent, -⟩ | hnext
      · rw [hcurrent, ← (h.synced x).remote, Sealing.header] at hratchet
        exact absurd hratchet remote
      · exact hnext
    refine .inr ⟨hchain, near, ?_⟩
    -- the frames missing from the chain that is closed
    cases hreceiving : (w.session x).receiving with
    | none =>
      rw [h.sentIn_eq_nil_of_receiving hreceiving, List.length_nil, Nat.zero_sub]
      exact Nat.zero_le _
    | some chain =>
      obtain ⟨-, -, -, hnext⟩ := h.receiving_eq hreceiving
      have hprevious := (h.genuine s hs).previous
      rw [hsender, hchain, Nat.add_sub_cancel, Sealing.header] at hprevious
      have hcloses := (closes chain hreceiving).2
      rw [hprevious, hnext] at hcloses
      exact hcloses

end NotPassed

/-! ## Honest runs -/

variable (P) in
/-- What happens to honest parties: `encrypt` calls, deliveries of outstanding frames whose
    key the receiver has not dropped, with a ratchet key drawn in case one is needed, and
    frames that do not authenticate under the key that the session tries them under. -/
def Honest (w : World α σ) : Event α σ → Prop
  | .encrypt _ _ _ => True
  | .decrypt x sealed generated =>
    (∃ s ∈ w.unopened x, s.sealed = sealed ∧ (∃ own, generated = .ok own) ∧
      (w.Passed x s → ∃ e ∈ (w.session x).skipped, w.StoredFor x e s)) ∨
    ∀ key plaintext, (w.session x).messageKeyFor P (Header.parse sealed.frame) = some key →
      ¬ Opens P key sealed plaintext

section Honest

variable (h : Lockstep P sharedKey .byLabel w) (correct : CorrectPrimitives P)
  (hdistinct : (w.ratchets.map (publicKey P)).Nodup)

include h correct hdistinct

/-- An outstanding frame opens as what it is. -/
theorem Lockstep.opened_of_unopened {own : σ} {plaintext : Plaintext α} {key : Key α}
    {s' : Session α σ} (hs : s ∈ w.unopened x)
    (hkept : w.Passed x s → ∃ e ∈ (w.session x).skipped, w.StoredFor x e s)
    (run : Session.Decrypted P (w.session x) s.sealed (.ok own) plaintext key s') :
    Opened P sharedKey .byLabel w x s.sealed plaintext s key s'
      ((w.session x).takesStep s.header) := by
  have distinct := h.distinct_byLabel hdistinct
  obtain ⟨hmem, hsender, -⟩ := mem_unopened.mp hs
  by_cases hpassed : w.Passed x s
  · obtain ⟨e, he, hstored⟩ := hkept hpassed
    obtain ⟨key', session', hdecrypted, hopened⟩ := h.decrypts_stored hdistinct hmem hsender
      (h.label_unopened distinct hs) correct (.ok own) he hstored
    obtain ⟨rfl, rfl, rfl⟩ := run.unique P hdecrypted
    exact hopened
  · have hreach := h.inReach_of_decrypted hdistinct hmem hsender hpassed run
    obtain ⟨key', session', hdecrypted, hopened⟩ :=
      h.decrypts_inReach hdistinct hmem hsender hpassed correct distinct hreach own
    obtain ⟨rfl, rfl, rfl⟩ := run.unique P hdecrypted
    exact hopened

theorem Honest.traced {event : Event α σ} (honest : w.Honest P event) :
    w.Traced P sharedKey .byLabel event := by
  cases event with
  | encrypt sender random plaintext => trivial
  | decrypt receiver sealed generated =>
    intro plaintext key s' run
    rcases honest with ⟨s, hs, rfl, ⟨own, rfl⟩, hkept⟩ | hrefused
    · exact ⟨s, h.opened_of_unopened correct hdistinct hs hkept run⟩
    · exact absurd run.opens (hrefused key plaintext run.messageKeyFor)

end Honest

omit [DecidableEq α] in
theorem nodup_of_suffix {l m : List σ} (hsuffix : l <:+ m)
    (hnodup : (m.map (publicKey P)).Nodup) : (l.map (publicKey P)).Nodup :=
  hnodup.sublist (hsuffix.sublist.map _)

/-- Honest parties stay in lockstep. -/
theorem Lockstep.honest_reaches {w₀ : World α σ} (correct : CorrectPrimitives P)
    (h : Lockstep P sharedKey .byLabel w₀)
    (hreaches : Machine.Reaches (World.step P) (World.Honest P) w₀ w)
    (hdistinct : (w.ratchets.map (publicKey P)).Nodup) : Lockstep P sharedKey .byLabel w := by
  -- the keys drawn later do not matter earlier in the run
  refine hreaches.invariant (I := fun v => (v.ratchets.map (publicKey P)).Nodup →
    Lockstep P sharedKey .byLabel v) (fun v event hv honest hnodup => ?_) (fun _ => h) hdistinct
  have hbefore := nodup_of_suffix (v.ratchets_suffix_step event) hnodup
  have hv := hv hbefore
  exact hv.step (hv.distinct_byLabel hbefore) event (honest.traced hv correct hbefore)

end World

end Quietwire
