/-
  Quietwire.Ratchet.Lockstep

  The invariant that ties the two sessions of a conversation together
  (`World.Lockstep`), and what it says about the key of a frame: it tells the
  frame's sender, chain and number, and so the one `encrypt` call it came from.
-/
import Quietwire.Ratchet.Transition
import Quietwire.Ratchet.Eras
import Mathlib.Data.List.Nodup

namespace Quietwire

variable {α σ : Type} [Octet α]

def Sealing.header (s : Sealing α) : Header α := Header.parse s.sealed.frame

/-- The number of a frame in its chain. -/
def Sealing.number (s : Sealing α) : Nat := s.header.messageNumber.toNat

theorem Sealing.header_eq_of_sealed {s t : Sealing α} (h : s.sealed = t.sealed) :
    s.header = t.header := by
  rw [Sealing.header, Sealing.header, h]

theorem Sealing.number_eq_of_sealed {s t : Sealing α} (h : s.sealed = t.sealed) :
    s.number = t.number := by
  rw [Sealing.number, Sealing.number, Sealing.header_eq_of_sealed h]

/-! ## Telling frames apart -/

/-- What a frame is known by. -/
inductive Name (α : Type) where
  | key (key : Option (Key α))
  | label (ratchet : PublicKey α) (number : UInt32)

/-- Frames are told apart by the message key they are sealed under, or by the ratchet key
    and the number in their header. -/
inductive Naming where
  | byKey
  | byLabel

namespace Naming

def ofHeader (header : Header α) : Name α := .label header.ratchet header.messageNumber

def ofSealing : Naming → Sealing α → Name α
  | byKey, s => .key s.key
  | byLabel, s => ofHeader s.header

def ofOpening : Naming → Opening α → Name α
  | byKey, o => .key o.key
  | byLabel, o => ofHeader (Header.parse o.sealed.frame)

omit [Octet α] in
def ofEntry : Naming → SkippedKey α → Name α
  | byKey, e => .key (some e.key)
  | byLabel, e => .label e.ratchet e.number

/-- No two frames of one party have the same name. -/
def Distinct (naming : Naming) (w : World α σ) : Prop :=
  ∀ s ∈ w.sealings, ∀ t ∈ w.sealings, s.sender = t.sender →
    naming.ofSealing s = naming.ofSealing t → s = t

/-- Frames of one party with the same bytes are the same frame. -/
theorem Distinct.eq_of_sealed {w : World α σ} (distinct : byLabel.Distinct w) {s t : Sealing α}
    (hs : s ∈ w.sealings) (ht : t ∈ w.sealings) (hsender : s.sender = t.sender)
    (hsealed : s.sealed = t.sealed) : s = t := by
  refine distinct s hs t ht hsender ?_
  rw [ofSealing, ofSealing, Sealing.header_eq_of_sealed hsealed]

end Naming

variable (P : Primitives α σ) (sharedKey : SecretKey α) (naming : Naming)

/-- The chain that started from `start`, before its message number `n`. -/
def chainAt (start : Key α) (n : Nat) : Chain α :=
  { key := chainKeyAt P start n, next := UInt32.ofNat n }

namespace World

/-! ## The invariant -/

omit [Octet α] in
/-- The position of a party's receiving chain. -/
def received (w : World α σ) (x : Party) : Nat :=
  ((w.session x).receiving.map fun chain => chain.next.toNat).getD 0

/-- The receiving chain of `x` that a frame of its peer belongs to has moved past it. -/
def Passed (w : World α σ) (x : Party) (s : Sealing α) : Prop :=
  s.chain < w.steps x ∨ s.chain = w.steps x ∧ s.number < w.received x

/-- A frame ahead in the current receiving chain has not been passed. -/
theorem not_passed_of_le {w : World α σ} {x : Party} {s : Sealing α} (hchain : s.chain = w.steps x)
    (hahead : w.received x ≤ s.number) : ¬ w.Passed x s := by
  rintro (hlt | ⟨-, hlt⟩)
  · omega
  · omega

/-- Nor has a frame of a later chain. -/
theorem not_passed_of_lt {w : World α σ} {x : Party} {s : Sealing α}
    (hchain : w.steps x < s.chain) : ¬ w.Passed x s := by
  rintro (hlt | ⟨heq, -⟩)
  · omega
  · omega

/-- The names of the frames a party has opened. -/
def openedNames (w : World α σ) (x : Party) : List (Name α) :=
  (w.openedBy x).map naming.ofOpening

/-- A frame as its sender's session sealed it: key and header follow from its sender,
    chain and number. -/
structure Genuine (w : World α σ) (s : Sealing α) : Prop where
  chain_pos : 1 ≤ s.chain
  chain_le : s.chain ≤ w.sendingChain s.sender
  key : s.key = messageKeyOf P sharedKey (w.eraOf s.sender s.chain) s.number
  ratchet : (w.eraOf s.sender s.chain).head?.map (publicKey P) = some s.header.ratchet
  previous : s.header.previousChainLen.toNat = (w.sentIn s.sender (s.chain - 1)).length
  aad : s.sealed.aad = s.header.toBytes
  sealing : ∃ key, s.key = some key ∧
    aeadSeal P key s.sealed.nonce s.sealed.aad.toList s.plaintext.toList
      = .ok s.sealed.ciphertext.toList
  belowLimit : s.number < 2000

/-- Where one session stands in the key schedule: its root key and sending chain are
    those of its own newest era, its remote ratchet key and receiving chain those of the
    newest era of its peer that it has seen. -/
structure Synced (w : World α σ) (x : Party) : Prop where
  era : w.eraOf x (w.sendingChain x)
    = (w.session x).ownRatchet :: w.eraOf x.peer (w.steps x)
  rootKey : (w.session x).rootKey = rootKeyOf P sharedKey (w.eraOf x (w.sendingChain x))
  remote : (w.session x).remoteRatchet
    = (w.eraOf x.peer (w.steps x)).head?.map (publicKey P)
  chainStart : w.chainStart x = startKeyOf P sharedKey (w.eraOf x (w.sendingChain x))
  sending : (w.session x).sending
    = (startKeyOf P sharedKey (w.eraOf x (w.sendingChain x))).map fun start =>
        chainAt P start (w.sentIn x (w.sendingChain x)).length
  receiving : (w.session x).receiving
    = (startKeyOf P sharedKey (w.eraOf x.peer (w.steps x))).map fun start =>
        chainAt P start (w.received x)
  received_le : w.received x ≤ (w.sentIn x.peer (w.steps x)).length
  previous : (w.session x).previousSendingLen.toNat
    = (w.sentIn x (w.sendingChain x - 1)).length

/-- The entry `e` of the store of `x` holds the key of the frame `s` of its peer. -/
def StoredFor (w : World α σ) (x : Party) (e : SkippedKey α) (s : Sealing α) : Prop :=
  s ∈ w.sealings ∧ s.sender = x.peer ∧ s.key = some e.key ∧ s.header.ratchet = e.ratchet ∧
    s.header.messageNumber = e.number

structure Lockstep (w : World α σ) : Prop where
  turn : w.steps .responder = w.steps .initiator ∨
    w.steps .responder = w.steps .initiator + 1
  drawn : w.ratchets.length = 2 + w.steps .initiator + w.steps .responder
  contributory : ∀ own remote era, w.ratchets = own :: remote :: era →
    P.x25519 own (publicKey P remote) ≠ zeroBytes
  synced : ∀ x, Synced P sharedKey w x
  genuine : ∀ s ∈ w.sealings, Genuine P sharedKey w s
  numbered : ∀ x chain, (w.sentIn x chain).map Sealing.number
    = (List.range (w.sentIn x chain).length).reverse
  opened : ∀ x, ∀ o ∈ w.openedBy x, ∃ s ∈ w.sealings, s.sender = x.peer ∧ s.key = o.key ∧
    s.sealed = o.sealed ∧ s.plaintext = o.plaintext ∧ w.Passed x s
  openedOnce : ∀ x, (w.openedNames naming x).Nodup
  stored : ∀ x, ∀ e ∈ (w.session x).skipped, ∃ s, w.StoredFor x e s ∧ w.Passed x s ∧
    naming.ofEntry e ∉ w.openedNames naming x
  storedOnce : ∀ x, ((w.session x).skipped.map naming.ofEntry).Nodup

theorem StoredFor.name_eq {w : World α σ} {x : Party} {e : SkippedKey α} {s : Sealing α}
    (h : w.StoredFor x e s) : naming.ofSealing s = naming.ofEntry e := by
  obtain ⟨-, -, hkey, hratchet, hnumber⟩ := h
  cases naming with
  | byKey => rw [Naming.ofSealing, Naming.ofEntry, hkey]
  | byLabel => rw [Naming.ofSealing, Naming.ofEntry, Naming.ofHeader, hratchet, hnumber]

end World

theorem Naming.ofSealing_eq_ofOpening (naming : Naming) {s : Sealing α} {o : Opening α}
    (hkey : s.key = o.key) (hsealed : s.sealed = o.sealed) :
    naming.ofSealing s = naming.ofOpening o := by
  cases naming with
  | byKey => rw [ofSealing, ofOpening, hkey]
  | byLabel => rw [ofSealing, ofOpening, Sealing.header, hsealed]

/-! ## Positions in the key schedule -/

section Positions

omit [Octet α]

namespace World

variable (w : World α σ) (x : Party)

/-- A party's newest era is one ratchet key longer than the newest era it has seen. -/
theorem eraLen_sendingChain :
    x.eraLen (w.sendingChain x) = x.peer.eraLen (w.steps x) + 1 := by
  cases x <;> simp only [Party.eraLen, Party.peer, sendingChain]
  omega

/-- The next era a party can see is one ratchet key longer than its own newest. -/
theorem eraLen_next :
    x.peer.eraLen (w.steps x + 1) = x.eraLen (w.sendingChain x) + 1 := by
  cases x <;> simp only [Party.eraLen, Party.peer, sendingChain]
  omega

end World

theorem Party.eraLen_mono (x : Party) {c d : Nat} (h : c ≤ d) : x.eraLen c ≤ x.eraLen d := by
  cases x <;> simp only [Party.eraLen] <;> omega

end Positions

/-! ## Consequences -/

namespace World
namespace Lockstep

variable {P sharedKey naming} {w : World α σ} (h : Lockstep P sharedKey naming w)

include h

/-- A party has seen all or all but one of its peer's sending chains. -/
theorem steps_le (x : Party) :
    w.steps x ≤ w.sendingChain x.peer ∧ w.sendingChain x.peer ≤ w.steps x + 1 := by
  have hturn := h.turn
  cases x <;> simp only [Party.peer, sendingChain] <;> omega

theorem eraLen_le {x : Party} {chain : Nat} (hchain : chain ≤ w.sendingChain x) :
    x.eraLen chain ≤ w.ratchets.length := by
  have hmono := x.eraLen_mono hchain
  have hturn := h.turn
  have hdrawn := h.drawn
  cases x <;> simp only [Party.eraLen, sendingChain] at * <;> omega

theorem length_era {x : Party} {chain : Nat} (hchain : chain ≤ w.sendingChain x) :
    (w.eraOf x chain).length = x.eraLen chain := by
  rw [length_eraOf, Nat.min_eq_left (h.eraLen_le hchain)]

/-- A party that has not seen its peer's newest chain is behind: its peer's newest era is
    everything drawn so far. -/
theorem eraOf_next {x : Party} (hnext : w.sendingChain x.peer = w.steps x + 1) :
    w.eraOf x.peer (w.steps x + 1) = w.ratchets := by
  apply rtake_of_length_le
  have hturn := h.turn
  have hdrawn := h.drawn
  cases x <;> simp only [Party.eraLen, Party.peer, sendingChain] at * <;> omega

/-- Message keys tell frames apart by sender, chain and number. -/
theorem key_inj (free : FreeKdf P) (fresh : FreshSharedKey P sharedKey) {x y : Party}
    {c d m n : Nat} {key : Key α} (hc : c ≤ w.sendingChain x) (hd : d ≤ w.sendingChain y)
    (hx : messageKeyOf P sharedKey (w.eraOf x c) m = some key)
    (hy : messageKeyOf P sharedKey (w.eraOf y d) n = some key) : x = y ∧ c = d ∧ m = n := by
  obtain ⟨hlen, hnumber⟩ := free.messageKeyOf_inj fresh hx hy
  rw [h.length_era hc, h.length_era hd] at hlen
  obtain ⟨hparty, hchain⟩ := Party.eraLen_inj hlen
  exact ⟨hparty, hchain, hnumber⟩

theorem number_lt {x : Party} {chain : Nat} {s : Sealing α} (hs : s ∈ w.sentIn x chain) :
    s.number < (w.sentIn x chain).length := by
  have hmem := List.mem_map_of_mem (f := Sealing.number) hs
  rw [h.numbered, List.mem_reverse, List.mem_range] at hmem
  exact hmem

theorem exists_number {x : Party} {chain n : Nat} (hn : n < (w.sentIn x chain).length) :
    ∃ s ∈ w.sentIn x chain, s.number = n := by
  have hmem : n ∈ (w.sentIn x chain).map Sealing.number := by
    rw [h.numbered, List.mem_reverse, List.mem_range]
    exact hn
  exact List.mem_map.mp hmem

theorem length_sentIn_le (x : Party) (chain : Nat) : (w.sentIn x chain).length ≤ 2000 := by
  by_contra hlong
  obtain ⟨s, hs, hnumber⟩ := h.exists_number (Nat.lt_of_not_le hlong)
  have hbelow := (h.genuine s (mem_sentIn.mp hs).1).belowLimit
  omega

theorem number_inj {x : Party} {chain : Nat} {s t : Sealing α} (hs : s ∈ w.sentIn x chain)
    (ht : t ∈ w.sentIn x chain) (hnumber : s.number = t.number) : s = t := by
  have hnodup : ((w.sentIn x chain).map Sealing.number).Nodup := by
    rw [h.numbered]
    exact List.nodup_reverse.mpr List.nodup_range
  exact List.inj_on_of_nodup_map hnodup hs ht hnumber

/-- No two `encrypt` calls used the same message key. -/
theorem sealing_unique (free : FreeKdf P) (fresh : FreshSharedKey P sharedKey)
    {s t : Sealing α} (hs : s ∈ w.sealings) (ht : t ∈ w.sealings) (hkey : s.key = t.key) :
    s = t := by
  obtain ⟨key, hsome, -⟩ := (h.genuine s hs).sealing
  have hsKey := (h.genuine s hs).key.symm.trans hsome
  have htKey := (h.genuine t ht).key.symm.trans (hkey.symm.trans hsome)
  obtain ⟨hsender, hchain, hnumber⟩ := h.key_inj free fresh (h.genuine s hs).chain_le
    (h.genuine t ht).chain_le hsKey htKey
  exact h.number_inj (mem_sentIn.mpr ⟨hs, rfl, rfl⟩)
    (mem_sentIn.mpr ⟨ht, hsender.symm, hchain.symm⟩) hnumber

theorem distinct_byKey (free : FreeKdf P) (fresh : FreshSharedKey P sharedKey) :
    Naming.byKey.Distinct w := by
  intro s hs t ht _ hname
  have hkey : s.key = t.key := by
    simpa [Naming.ofSealing] using hname
  exact h.sealing_unique free fresh hs ht hkey

/-- With distinct ratchet keys, the ratchet key of a frame tells its era. -/
theorem eraLen_of_ratchet (hdistinct : (w.ratchets.map (publicKey P)).Nodup) {x y : Party}
    {c d : Nat} (hc : c ≤ w.sendingChain x) (hd : d ≤ w.sendingChain y) (hpos : 1 ≤ c)
    (hratchet : (w.eraOf x c).head?.map (publicKey P) = (w.eraOf y d).head?.map (publicKey P)) :
    x.eraLen c = y.eraLen d := by
  have hcLen := h.eraLen_le hc
  have hdLen := h.eraLen_le hd
  rw [eraOf, eraOf, List.rtake, List.rtake, List.head?_drop, List.head?_drop,
    ← List.getElem?_map, ← List.getElem?_map] at hratchet
  have hinside : w.ratchets.length - x.eraLen c < (w.ratchets.map (publicKey P)).length := by
    have hlong : 1 ≤ x.eraLen c := by
      cases x <;> simp only [Party.eraLen] <;> omega
    rw [List.length_map]
    omega
  have hpositions := (List.getElem?_inj hinside hdistinct).mp hratchet
  omega

/-- In particular it tells its sender's chain. -/
theorem chain_of_ratchet (hdistinct : (w.ratchets.map (publicKey P)).Nodup) {x : Party}
    {c d : Nat} (hc : c ≤ w.sendingChain x) (hd : d ≤ w.sendingChain x) (hpos : 1 ≤ c)
    (hratchet : (w.eraOf x c).head?.map (publicKey P) = (w.eraOf x d).head?.map (publicKey P)) :
    c = d :=
  (Party.eraLen_inj (h.eraLen_of_ratchet hdistinct hc hd hpos hratchet)).2

/-- With distinct ratchet keys, no two frames of one party have the same ratchet key and
    number. -/
theorem distinct_byLabel (hdistinct : (w.ratchets.map (publicKey P)).Nodup) :
    Naming.byLabel.Distinct w := by
  intro s hs t ht hsender hname
  simp only [Naming.ofSealing, Naming.ofHeader, Name.label.injEq] at hname
  have hratchet := (h.genuine s hs).ratchet
  have hsLe := (h.genuine s hs).chain_le
  rw [hname.1, ← (h.genuine t ht).ratchet, hsender] at hratchet
  rw [hsender] at hsLe
  have hchain := h.chain_of_ratchet hdistinct hsLe (h.genuine t ht).chain_le
    (h.genuine s hs).chain_pos hratchet
  exact h.number_inj (mem_sentIn.mpr ⟨hs, hsender, hchain⟩) (mem_sentIn.mpr ⟨ht, rfl, rfl⟩)
    (by rw [Sealing.number, Sealing.number, hname.2])

/-- The chain that a party seals in, when there is one. -/
theorem sending_eq {x : Party} {chain : Chain α} (hsending : (w.session x).sending = some chain) :
    ∃ start, startKeyOf P sharedKey (w.eraOf x (w.sendingChain x)) = some start ∧
      chain = chainAt P start (w.sentIn x (w.sendingChain x)).length := by
  rw [(h.synced x).sending, Option.map_eq_some_iff] at hsending
  obtain ⟨start, hstart, rfl⟩ := hsending
  exact ⟨start, hstart, rfl⟩

/-- The chain that a party opens in, when there is one. -/
theorem receiving_eq {x : Party} {chain : Chain α}
    (hreceiving : (w.session x).receiving = some chain) :
    ∃ start, startKeyOf P sharedKey (w.eraOf x.peer (w.steps x)) = some start ∧
      chain = chainAt P start (w.received x) ∧ chain.next.toNat = w.received x := by
  have heq : w.received x = chain.next.toNat := by
    simp only [received, hreceiving, Option.map_some, Option.getD_some]
  rw [(h.synced x).receiving, Option.map_eq_some_iff] at hreceiving
  obtain ⟨start, hstart, rfl⟩ := hreceiving
  exact ⟨start, hstart, rfl, heq.symm⟩

end Lockstep
end World

end Quietwire
