/-
  Quietwire.Network.Ladder

  The keys of one session by itself, whoever is at the other end: they follow
  from its shared key and the secrets its ratchet steps agreed on.  An initiator
  seals after an odd number of agreements and opens after an even one, a
  responder the other way round, and no session opens twice at one place.
-/
import Quietwire.Ratchet.Calls
import Quietwire.Ratchet.Eras
import Mathlib.Data.List.Nodup

namespace Quietwire

variable {α σ : Type} [Octet α] (P : Primitives α σ)

/-- The root key after the given agreements, newest first. -/
def rootKeyAfter (sharedKey : SecretKey α) : List (SecretKey α) → SecretKey α
  | [] => sharedKey
  | secret :: older => (expandRoot P (rootKeyAfter sharedKey older) secret).1

/-- The key that the chain of the newest agreement starts from. -/
def startKeyAfter (sharedKey : SecretKey α) (older : List (SecretKey α))
    (secret : SecretKey α) : Key α :=
  (expandRoot P (rootKeyAfter P sharedKey older) secret).2

/-- The place of a message key: the agreements up to that of its chain, and its number. -/
structure Slot (α : Type) where
  older : List (SecretKey α)
  secret : SecretKey α
  number : Nat

namespace Slot

omit [Octet α] in
/-- How many agreements were made up to the slot's chain. -/
def depth (slot : Slot α) : Nat := slot.older.length + 1

def key (sharedKey : SecretKey α) (slot : Slot α) : Key α :=
  messageKeyAt P (startKeyAfter P sharedKey slot.older slot.secret) slot.number

omit [Octet α] in
/-- A session that has made `agreements` and received `received` frames of its current chain
    has gone past the slot. -/
def Passed (agreements received : Nat) (slot : Slot α) : Prop :=
  slot.depth + 1 < agreements ∨ slot.depth + 1 = agreements ∧ slot.number < received

omit [Octet α] in
theorem Passed.mono {agreements received received' : Nat} {slot : Slot α}
    (h : slot.Passed agreements received) (hle : received ≤ received') :
    slot.Passed agreements received' :=
  h.imp_right fun ⟨hdepth, hnumber⟩ => ⟨hdepth, by omega⟩

/-- The slots of one chain from a number on. -/
def ahead (older : List (SecretKey α)) (secret : SecretKey α) (first count : Nat) :
    List (Slot α) :=
  (List.range count).map fun i => ⟨older, secret, first + i⟩

omit [Octet α] in
theorem mem_ahead {older : List (SecretKey α)} {secret : SecretKey α} {first count : Nat}
    {slot : Slot α} : slot ∈ ahead older secret first count ↔
      slot.older = older ∧ slot.secret = secret ∧ first ≤ slot.number ∧
        slot.number < first + count := by
  simp only [ahead, List.mem_map, List.mem_range]
  constructor
  · rintro ⟨i, hi, rfl⟩
    exact ⟨rfl, rfl, Nat.le_add_right _ _, by simp only; omega⟩
  · rintro ⟨rfl, rfl, hfirst, hlast⟩
    refine ⟨slot.number - first, by omega, ?_⟩
    rw [Nat.add_sub_of_le hfirst]

omit [Octet α] in
theorem nodup_ahead (older : List (SecretKey α)) (secret : SecretKey α) (first count : Nat) :
    (ahead older secret first count).Nodup := by
  refine List.Nodup.map ?_ List.nodup_range
  intro i j h
  have hnumber := congrArg Slot.number h
  simp only at hnumber
  omega

/-- The message keys from a chain key on are those of the slots from its position on. -/
theorem map_key_ahead (sharedKey : SecretKey α) (older : List (SecretKey α))
    (secret : SecretKey α) (ratchet : PublicKey α) (first count : Nat) :
    (SkippedKeys.entries ratchet (messageKeysFrom P
        (chainKeyAt P (startKeyAfter P sharedKey older secret) first) first count)).map
      SkippedKey.key = (ahead older secret first count).map (key P sharedKey) := by
  simp only [SkippedKeys.entries, messageKeysFrom, ahead, List.map_map]
  refine List.map_congr_left fun i _ => ?_
  exact (messageKeyAt_add P _ _ _).symm

end Slot

/-! ## What a key tells -/

section Free

variable {P}

/-- A root key tells the shared key and every agreement that it was derived from. -/
theorem FreeKdf.rootKeyAfter_inj (free : FreeKdf P) {sharedKey sharedKey' : SecretKey α}
    (fresh : FreshSharedKey P sharedKey) (fresh' : FreshSharedKey P sharedKey')
    {agreed agreed' : List (SecretKey α)}
    (h : rootKeyAfter P sharedKey agreed = rootKeyAfter P sharedKey' agreed') :
    sharedKey = sharedKey' ∧ agreed = agreed' := by
  induction agreed generalizing agreed' with
  | nil =>
    cases agreed' with
    | nil => exact ⟨h, rfl⟩
    | cons secret older => exact absurd h (fresh _ _)
  | cons secret older ih =>
    cases agreed' with
    | nil => exact absurd h.symm (fresh' _ _)
    | cons secret' older' =>
      obtain ⟨hroot, rfl⟩ := free.root_inj _ _ _ _ h
      obtain ⟨hshared, rfl⟩ := ih hroot
      exact ⟨hshared, rfl⟩

/-- A message key tells the shared key and its slot. -/
theorem Slot.key_inj (free : FreeKdf P) {sharedKey sharedKey' : SecretKey α}
    (fresh : FreshSharedKey P sharedKey) (fresh' : FreshSharedKey P sharedKey')
    {slot slot' : Slot α} (h : slot.key P sharedKey = slot'.key P sharedKey') :
    sharedKey = sharedKey' ∧ slot = slot' := by
  obtain ⟨⟨hroot, hsecret⟩, hnumber⟩ := free.messageKeyAt_inj h
  obtain ⟨hshared, holder⟩ := free.rootKeyAfter_inj fresh fresh' hroot
  refine ⟨hshared, ?_⟩
  cases slot
  cases slot'
  cases holder
  cases hsecret
  cases hnumber
  rfl

end Free

/-! ## The keys of a session -/

/-- The parity of the number of agreements after which a party seals. -/
def Party.turn : Party → Nat
  | .initiator => 1
  | .responder => 0

theorem Party.turn_lt (x : Party) : x.turn < 2 := by
  cases x <;> decide

theorem Party.eq_peer_of_turn {x y : Party} (h : x.turn ≠ y.turn) : x = y.peer := by
  cases x <;> cases y <;> first | rfl | exact absurd rfl h

namespace Session

omit [Octet α] in
/-- How many frames of the current receiving chain have been passed. -/
def received (s : Session α σ) : Nat := (s.receiving.map fun chain => chain.next.toNat).getD 0

omit [Octet α] in
theorem received_of_receiving {s : Session α σ} {chain : Chain α}
    (h : s.receiving = some chain) : s.received = chain.next.toNat := by
  rw [received, h]
  rfl

/-- The session of a side that has `agreed` on these secrets, newest first, and has opened
    frames at the slots in `opened`. -/
structure Scheduled (sharedKey : SecretKey α) (side : Party) (agreed : List (SecretKey α))
    (opened : List (Slot α)) (s : Session α σ) : Prop where
  root : s.rootKey = rootKeyAfter P sharedKey agreed
  turn : agreed.length % 2 = side.turn
  sending : ∀ chain, s.sending = some chain → ∃ secret older, agreed = secret :: older ∧
    chain.key = chainKeyAt P (startKeyAfter P sharedKey older secret) chain.next.toNat
  receiving : ∀ chain, s.receiving = some chain → ∃ newest secret older,
    agreed = newest :: secret :: older ∧
    chain.key = chainKeyAt P (startKeyAfter P sharedKey older secret) chain.next.toNat
  stored : ∃ slots : List (Slot α),
    s.skipped.map SkippedKey.key = slots.map (Slot.key P sharedKey) ∧
    (slots ++ opened).Nodup ∧ ∀ slot ∈ slots ++ opened,
      slot.Passed agreed.length s.received ∧ slot.depth % 2 ≠ side.turn

variable {P} {sharedKey : SecretKey α} {side : Party} {agreed : List (SecretKey α)}
  {opened : List (Slot α)} {s s' : Session α σ}

/-- A frame is sealed at a slot of the sender's own parity. -/
theorem Scheduled.sealed (h : s.Scheduled P sharedKey side agreed opened) {nonce : Nonce α}
    {plaintext : Plaintext α} {sealed : SealedFrame α} {chain : Chain α}
    (run : Sealed P nonce plaintext s sealed s' chain) :
    (∃ slot : Slot α, (kdfChain P chain.key).1 = slot.key P sharedKey ∧
      slot.depth % 2 = side.turn) ∧
    s'.Scheduled P sharedKey side agreed opened := by
  obtain ⟨secret, older, hagreed, hkey⟩ := h.sending chain run.sending
  have hnext : (chain.next + 1).toNat = chain.next.toNat + 1 :=
    toNat_succ_of_lt (m := chainLimit) run.belowLimit
  constructor
  · refine ⟨⟨older, secret, chain.next.toNat⟩, ?_, ?_⟩
    · rw [hkey]
      rfl
    · rw [← h.turn, hagreed]
      rfl
  · rw [run.after]
    refine { h with sending := ?_ }
    rintro _ ⟨⟩
    refine ⟨secret, older, hagreed, ?_⟩
    simp only
    rw [hnext, chainKeyAt_succ, hkey]

section Decrypted

variable [DecidableEq α]

omit [Octet α] [DecidableEq α] in
/-- Slots that a session has not passed can be added to those it holds. -/
theorem nodup_append_ahead {agreements count : Nat} {held news : List (Slot α)}
    (hheld : held.Nodup) (hpassed : ∀ slot ∈ held, slot.Passed agreements count)
    (hnews : news.Nodup) (hahead : ∀ slot ∈ news, ¬ slot.Passed agreements count) :
    (held ++ news).Nodup :=
  List.nodup_append.mpr ⟨hheld, hnews, fun slot hslot slot' hslot' heq =>
    hahead slot' hslot' (heq ▸ hpassed slot hslot)⟩

omit [DecidableEq α] in
/-- What is stored once a frame has been opened at a slot ahead: a part of the old store and
    of the slots skipped on the way. -/
theorem Scheduled.stored_of_ahead (h : s.Scheduled P sharedKey side agreed opened)
    {agreements count : Nat} (skipped : List (Slot α)) {slot : Slot α}
    (hsublist : (s'.skipped.map SkippedKey.key).Sublist
      (s.skipped.map SkippedKey.key ++ skipped.map (Slot.key P sharedKey)))
    (hnodup : (skipped ++ [slot]).Nodup)
    (hahead : ∀ n ∈ skipped ++ [slot], ¬ n.Passed agreed.length s.received ∧
      n.Passed agreements count ∧ n.depth % 2 ≠ side.turn)
    (hkept : ∀ n : Slot α, n.Passed agreed.length s.received → n.Passed agreements count) :
    ∃ slots : List (Slot α),
      s'.skipped.map SkippedKey.key = slots.map (Slot.key P sharedKey) ∧
      (slots ++ slot :: opened).Nodup ∧ ∀ n ∈ slots ++ slot :: opened,
        n.Passed agreements count ∧ n.depth % 2 ≠ side.turn := by
  obtain ⟨held, hheld, hheldNodup, hheldPassed⟩ := h.stored
  rw [hheld, ← List.map_append, List.sublist_map_iff] at hsublist
  obtain ⟨slots, hslots, hkeys⟩ := hsublist
  have hall := nodup_append_ahead hheldNodup (fun n hn => (hheldPassed n hn).1) hnodup
    fun n hn => (hahead n hn).1
  have hperm : (held ++ opened ++ (skipped ++ [slot])).Perm
      (held ++ skipped ++ slot :: opened) := by
    rw [List.append_assoc, List.append_assoc]
    refine List.Perm.append_left held ?_
    refine List.perm_append_comm.trans ?_
    rw [List.append_assoc]
    exact List.Perm.refl _
  have hpart : (slots ++ slot :: opened).Sublist (held ++ skipped ++ slot :: opened) :=
    hslots.append_right _
  refine ⟨slots, hkeys, (hperm.nodup hall).sublist hpart, ?_⟩
  intro n hn
  have hmem := hperm.symm.subset (hpart.subset hn)
  rcases List.mem_append.mp hmem with hold | hnew
  · exact ⟨hkept n (hheldPassed n hold).1, (hheldPassed n hold).2⟩
  · exact (hahead n hnew).2

omit [DecidableEq α] in
/-- A stored key is taken out of the store. -/
theorem Scheduled.takeStored (h : s.Scheduled P sharedKey side agreed opened)
    {older newer : SkippedKeys α} {entry : SkippedKey α}
    (hstore : s.skipped = older ++ entry :: newer) :
    ∃ slot : Slot α, entry.key = slot.key P sharedKey ∧ slot.depth % 2 ≠ side.turn ∧
      Scheduled P sharedKey side agreed (slot :: opened) { s with skipped := older ++ newer } := by
  obtain ⟨held, hheld, hnodup, hpassed⟩ := h.stored
  rw [hstore, List.map_append, List.map_cons] at hheld
  obtain ⟨before, rest, rfl, hbefore, hrest⟩ := List.map_eq_append_iff.mp hheld.symm
  obtain ⟨slot, after, rfl, hslot, hafter⟩ := List.map_eq_cons_iff.mp hrest
  have hperm : (before ++ slot :: after ++ opened).Perm (before ++ after ++ slot :: opened) := by
    rw [List.append_assoc, List.append_assoc]
    exact List.Perm.append_left before (List.perm_middle.symm)
  have hmem : slot ∈ before ++ slot :: after ++ opened := by
    simp
  refine ⟨slot, hslot.symm, (hpassed slot hmem).2, { h with stored := ?_ }⟩
  refine ⟨before ++ after, ?_, hperm.nodup hnodup, fun n hn => hpassed n (hperm.symm.subset hn)⟩
  simp only [List.map_append, hbefore, hafter]

/-- The session moves on in its receiving chain. -/
theorem Scheduled.advance (h : s.Scheduled P sharedKey side agreed opened) {header : Header α}
    {chain : Chain α} (hreceiving : s.receiving = some chain)
    (hlimit : header.messageNumber.toNat < 2000)
    (hahead : chain.next.toNat ≤ header.messageNumber.toNat) :
    ∃ slot : Slot α, messageKeyAt P chain.key (header.messageNumber.toNat - chain.next.toNat)
        = slot.key P sharedKey ∧ slot.depth % 2 ≠ side.turn ∧
      Scheduled P sharedKey side agreed (slot :: opened) (s.advanceReceiving P header chain) := by
  obtain ⟨newest, secret, older, hagreed, hkey⟩ := h.receiving chain hreceiving
  have hnext : (header.messageNumber + 1).toNat = header.messageNumber.toNat + 1 :=
    toNat_succ_of_lt (m := chainLimit) hlimit
  have hreceived : s.received = chain.next.toNat := received_of_receiving hreceiving
  have hreceived' : (s.advanceReceiving P header chain).received
      = header.messageNumber.toNat + 1 := hnext
  have hlength : agreed.length = older.length + 2 := by
    rw [hagreed]
    rfl
  have hturn := h.turn
  have hside := side.turn_lt
  refine ⟨⟨older, secret, header.messageNumber.toNat⟩, ?_, ?_, ?_⟩
  · rw [hkey, ← messageKeyAt_add, Nat.add_sub_of_le hahead]
    rfl
  · simp only [Slot.depth]
    omega
  · refine { h with receiving := ?_, stored := ?_ }
    · rintro _ ⟨⟩
      refine ⟨newest, secret, older, hagreed, ?_⟩
      simp only
      rw [hnext, hkey, ← chainKeyAt_add]
      congr 1
      omega
    · rw [hreceived']
      refine h.stored_of_ahead (Slot.ahead older secret chain.next.toNat
        (header.messageNumber.toNat - chain.next.toNat)) ?_ ?_ ?_ ?_
      · rw [← Slot.map_key_ahead P sharedKey older secret header.ratchet, ← hkey, ← List.map_append]
        exact (advanceReceiving_sublist P s header chain).map _
      · refine List.nodup_append.mpr ⟨Slot.nodup_ahead _ _ _ _, List.nodup_singleton _, ?_⟩
        rintro n hn _ hlast rfl
        obtain rfl := List.mem_singleton.mp hlast
        have hn' := (Slot.mem_ahead.mp hn).2.2.2
        simp only at hn'
        omega
      · intro n hn
        have hplace : n.older = older ∧ chain.next.toNat ≤ n.number ∧
            n.number ≤ header.messageNumber.toNat := by
          rcases List.mem_append.mp hn with hskipped | hlast
          · obtain ⟨holder, -, hfirst, hlast⟩ := Slot.mem_ahead.mp hskipped
            exact ⟨holder, hfirst, by omega⟩
          · obtain rfl := List.mem_singleton.mp hlast
            exact ⟨rfl, hahead, Nat.le_refl _⟩
        obtain ⟨holder, hfirst, hlast⟩ := hplace
        simp only [Slot.Passed, Slot.depth, holder, hreceived]
        omega
      · intro n hn
        rw [hreceived] at hn
        exact hn.mono (by omega)

omit [DecidableEq α] in
/-- The slots that a ratchet step skips in the receiving chain it closes. -/
theorem Scheduled.exists_missing (h : s.Scheduled P sharedKey side agreed opened)
    (header : Header α) : ∃ slots : List (Slot α),
      (s.missing P header).map SkippedKey.key = slots.map (Slot.key P sharedKey) ∧
      slots.Nodup ∧ ∀ slot ∈ slots, slot.depth + 1 = agreed.length ∧ s.received ≤ slot.number := by
  unfold missing
  cases hreceiving : s.receiving with
  | none => exact ⟨[], rfl, List.nodup_nil, nofun⟩
  | some chain =>
    cases s.remoteRatchet with
    | none => exact ⟨[], rfl, List.nodup_nil, nofun⟩
    | some remote =>
      obtain ⟨newest, secret, older, hagreed, hkey⟩ := h.receiving chain hreceiving
      refine ⟨Slot.ahead older secret chain.next.toNat
        (header.previousChainLen.toNat - chain.next.toNat), ?_, Slot.nodup_ahead _ _ _ _, ?_⟩
      · simp only [hkey]
        exact Slot.map_key_ahead P sharedKey older secret remote _ _
      · intro slot hslot
        obtain ⟨holder, -, hfirst, -⟩ := Slot.mem_ahead.mp hslot
        rw [received_of_receiving hreceiving, Slot.depth, holder, hagreed]
        exact ⟨rfl, hfirst⟩

/-- The session takes a ratchet step: two agreements more. -/
theorem Scheduled.ratchetStep (h : s.Scheduled P sharedKey side agreed opened)
    {header : Header α} {own : σ} {middle root : SecretKey α} {receiving sending : Key α}
    (hreceiving : kdfRoot P s.rootKey s.ownRatchet header.ratchet = .ok (middle, receiving))
    (hsending : kdfRoot P middle own header.ratchet = .ok (root, sending))
    (hlimit : header.messageNumber.toNat ≤ 1000) :
    ∃ (agreed' : List (SecretKey α)) (slot : Slot α),
      messageKeyAt P receiving header.messageNumber.toNat = slot.key P sharedKey ∧
      slot.depth % 2 ≠ side.turn ∧
      Scheduled P sharedKey side agreed' (slot :: opened)
        ((s.afterStep P header own root sending).advanceReceiving P header
          { key := receiving, next := 0 }) := by
  obtain ⟨-, rfl, rfl⟩ := (kdfRoot_eq_ok_iff P).mp hreceiving
  obtain ⟨-, rfl, rfl⟩ := (kdfRoot_eq_ok_iff P).mp hsending
  rw [h.root]
  have hnext : (header.messageNumber + 1).toNat = header.messageNumber.toNat + 1 :=
    toNat_succ_of_lt (m := chainLimit) (Nat.lt_of_le_of_lt hlimit (by decide))
  have hturn := h.turn
  have hside := side.turn_lt
  obtain ⟨missing, hmissing, hmissingNodup, hmissingPlace⟩ := h.exists_missing header
  refine ⟨P.x25519 own header.ratchet :: P.x25519 s.ownRatchet header.ratchet :: agreed,
    ⟨agreed, P.x25519 s.ownRatchet header.ratchet, header.messageNumber.toNat⟩, rfl, ?_, ?_⟩
  · simp only [Slot.depth]
    omega
  · refine ⟨rfl, ?_, ?_, ?_, ?_⟩
    · simp only [List.length_cons]
      omega
    · rintro _ ⟨⟩
      exact ⟨_, _, rfl, rfl⟩
    · rintro _ ⟨⟩
      refine ⟨_, _, _, rfl, ?_⟩
      simp only [hnext]
      rfl
    · have hreceived' : ((s.afterStep P header own
          (expandRoot P (expandRoot P (rootKeyAfter P sharedKey agreed)
            (P.x25519 s.ownRatchet header.ratchet)).1 (P.x25519 own header.ratchet)).1
          (expandRoot P (expandRoot P (rootKeyAfter P sharedKey agreed)
            (P.x25519 s.ownRatchet header.ratchet)).1 (P.x25519 own header.ratchet)).2)
          |>.advanceReceiving P header { key := (expandRoot P (rootKeyAfter P sharedKey agreed)
            (P.x25519 s.ownRatchet header.ratchet)).2, next := 0 }).received
          = header.messageNumber.toNat + 1 := hnext
      rw [hreceived']
      refine h.stored_of_ahead (missing ++ Slot.ahead agreed
        (P.x25519 s.ownRatchet header.ratchet) 0 header.messageNumber.toNat) ?_ ?_ ?_ ?_
      · rw [List.map_append, ← hmissing, ← Slot.map_key_ahead P sharedKey agreed _ header.ratchet,
          ← List.map_append, ← List.map_append]
        exact (afterStep_sublist P s header own _ _ _).map _
      · refine List.nodup_append.mpr ⟨List.nodup_append.mpr
          ⟨hmissingNodup, Slot.nodup_ahead _ _ _ _, ?_⟩, List.nodup_singleton _, ?_⟩
        · rintro n hn _ hn' rfl
          have hdepth := (hmissingPlace n hn).1
          rw [Slot.depth, (Slot.mem_ahead.mp hn').1] at hdepth
          omega
        · rintro n hn _ hlast rfl
          obtain rfl := List.mem_singleton.mp hlast
          rcases List.mem_append.mp hn with hold | hnew
          · have hdepth := (hmissingPlace _ hold).1
            simp only [Slot.depth] at hdepth
            omega
          · have hlt := (Slot.mem_ahead.mp hnew).2.2.2
            simp only at hlt
            omega
      · intro n hn
        simp only [Slot.Passed, List.length_cons]
        rcases List.mem_append.mp hn with hskipped | hlast
        · rcases List.mem_append.mp hskipped with hold | hnew
          · obtain ⟨hdepth, hnumber⟩ := hmissingPlace n hold
            omega
          · obtain ⟨holder, -, -, hlt⟩ := Slot.mem_ahead.mp hnew
            rw [Slot.depth, holder]
            omega
        · obtain rfl := List.mem_singleton.mp hlast
          simp only [Slot.depth]
          exact ⟨by omega, .inr ⟨trivial, Nat.lt_succ_self _⟩, by omega⟩
      · intro n hn
        simp only [Slot.Passed, List.length_cons] at hn ⊢
        omega

/-- A frame is opened at a slot of the other parity, and at no slot twice. -/
theorem Scheduled.decrypted (h : s.Scheduled P sharedKey side agreed opened)
    {sealed : SealedFrame α} {generated : Except CryptoError σ} {plaintext : Plaintext α}
    {key : Key α} (run : Decrypted P s sealed generated plaintext key s') :
    ∃ (agreed' : List (SecretKey α)) (slot : Slot α), key = slot.key P sharedKey ∧
      slot.depth % 2 ≠ side.turn ∧ s'.Scheduled P sharedKey side agreed' (slot :: opened) := by
  cases run with
  | skipped hstore hfor hfirst hopens => exact ⟨agreed, h.takeStored hstore⟩
  | current hmissing hremote hreceiving hlimit hahead hnear hopens =>
    exact ⟨agreed, h.advance hreceiving hlimit hahead⟩
  | step hmissing hremote hcloses hreceiving hgenerated hsending hnear hopens =>
    exact h.ratchetStep hreceiving hsending hnear

/-- Every key that a session tries is a key of its schedule. -/
theorem Scheduled.exists_slot_of_tried (h : s.Scheduled P sharedKey side agreed opened)
    {header : Header α} {key : Key α} (htried : s.messageKeyFor P header = some key) :
    ∃ slot : Slot α, key = slot.key P sharedKey := by
  -- the key of a cursor in a chain of the schedule
  have hchain : ∀ (first : Nat) {older : List (SecretKey α)} {secret : SecretKey α}
      {cursor : Cursor α},
      cursor.key = chainKeyAt P (startKeyAfter P sharedKey older secret) first →
      ((cursor.messageKey P header.messageNumber).toOption.map Prod.fst) = some key →
      ∃ slot : Slot α, key = slot.key P sharedKey := by
    intro first older secret cursor hkey hcursor
    cases hrun : cursor.messageKey P header.messageNumber with
    | error e =>
      rw [hrun] at hcursor
      cases hcursor
    | ok result =>
      rw [hrun] at hcursor
      obtain rfl : result.1 = key := Option.some.inj hcursor
      obtain ⟨-, -, -, hmessage, -⟩ := (Cursor.messageKey_eq_ok_iff P _ _ _ _).mp hrun
      refine ⟨⟨older, secret, first + (header.messageNumber.toNat - cursor.next.toNat)⟩, ?_⟩
      rw [hmessage, hkey, ← messageKeyAt_add]
      rfl
  unfold messageKeyFor at htried
  split at htried
  · next index hposition =>
    obtain ⟨held, hheld, -⟩ := h.stored
    rw [SkippedKeys.key, Option.map_eq_some_iff] at htried
    obtain ⟨entry, hentry, rfl⟩ := htried
    have hmem : entry.key ∈ held.map (Slot.key P sharedKey) := by
      rw [← hheld]
      exact List.mem_map_of_mem (List.mem_of_getElem? hentry)
    obtain ⟨slot, -, hslot⟩ := List.mem_map.mp hmem
    exact ⟨slot, hslot.symm⟩
  · split at htried
    · split at htried
      · cases htried
      · next chain hreceiving =>
        obtain ⟨-, secret, older, -, hkey⟩ := h.receiving chain hreceiving
        exact hchain _ hkey htried
    · split at htried
      · cases htried
      · next middle receiving hroot =>
        obtain ⟨-, -, hstart⟩ := (kdfRoot_eq_ok_iff P).mp hroot
        rw [h.root] at hstart
        exact hchain 0 hstart htried

end Decrypted

/-! ## Sessions as they start -/

theorem scheduled_initiator [DecidableEq α] {remote : PublicKey α} {own : σ}
    (h : initiatorWith P sharedKey remote own = .ok s) :
    s.Scheduled P sharedKey .initiator [P.x25519 own remote] [] ∧ s.ownRatchet = own := by
  unfold initiatorWith at h
  cases hroot : kdfRoot P sharedKey own remote with
  | error e =>
    rw [hroot] at h
    cases h
  | ok keys =>
    obtain ⟨root, start⟩ := keys
    rw [hroot] at h
    simp only [bind, Except.bind, Chain.start_eq, pure, Except.pure, Except.ok.injEq] at h
    obtain ⟨-, rfl, rfl⟩ := (kdfRoot_eq_ok_iff P).mp hroot
    subst h
    refine ⟨⟨rfl, rfl, ?_, nofun, [], rfl, List.nodup_nil, nofun⟩, rfl⟩
    rintro _ ⟨⟩
    exact ⟨_, [], rfl, rfl⟩

variable (P) in
theorem scheduled_responder (sharedKey : SecretKey α) (signedPrekey : σ) :
    (responder sharedKey signedPrekey).Scheduled P sharedKey .responder [] [] :=
  ⟨rfl, rfl, nofun, nofun, [], rfl, List.nodup_nil, nofun⟩

end Session

end Quietwire
