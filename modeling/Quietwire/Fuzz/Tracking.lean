/-
  Quietwire.Fuzz.Tracking

  A conversation of the test targets runs in step with one of `World`: its two
  sessions are the same, the frames in flight are the frames sealed, and its flags
  are right about what has been opened.
-/
import Quietwire.Fuzz.Steady
import Quietwire.Fuzz.RatchetSession
import Quietwire.Support.Paired

namespace Quietwire

variable {α σ : Type} [DecidableEq α] [Octet α] {P : Primitives α σ} {sharedKey : SecretKey α}

namespace World

variable (w : World α σ) (x : Party)

omit [DecidableEq α] [Octet α] in
/-- The frames sealed for `x`, oldest first. -/
def sentTo : List (Sealing α) := (w.sealings.filter fun s => s.sender = x.peer).reverse

omit [DecidableEq α] [Octet α] in
def nonces : List (Nonce α) := w.sealings.map fun s => s.sealed.nonce

variable {w x}

omit [DecidableEq α] [Octet α] in
theorem mem_sentTo {s : Sealing α} : s ∈ w.sentTo x ↔ s ∈ w.sealings ∧ s.sender = x.peer := by
  rw [sentTo, List.mem_reverse, List.mem_filter, decide_eq_true_iff]

omit [DecidableEq α] [Octet α] in
theorem nodup_sentTo (hnonces : w.nonces.Nodup) : (w.sentTo x).Nodup :=
  List.nodup_reverse.mpr ((List.Nodup.of_map _ hnonces).filter _)

omit [DecidableEq α] [Octet α] in
theorem eq_of_nonce (hnonces : w.nonces.Nodup) {s t : Sealing α} (hs : s ∈ w.sealings)
    (ht : t ∈ w.sealings) (hnonce : s.sealed.nonce = t.sealed.nonce) : s = t :=
  List.inj_on_of_nodup_map hnonces hs ht hnonce

omit [DecidableEq α] [Octet α] in
theorem sentTo_recordSealing (s' : Session α σ) (sealing : Sealing α) (y : Party) :
    (w.recordSealing s' sealing).sentTo y
      = if y = sealing.sender.peer then w.sentTo y ++ [sealing] else w.sentTo y := by
  rw [sentTo, sealings_recordSealing, List.filter_cons]
  rcases sealing.sender.eq_or_eq_peer y with rfl | rfl
  · simp [sentTo]
  · simp [sentTo]

omit [Octet α] in
/-- A new frame is outstanding, and what was outstanding still is. -/
theorem mem_unopened_recordSealing (s' : Session α σ) (sealing u : Sealing α) (y : Party) :
    u ∈ (w.recordSealing s' sealing).unopened y ↔
      u ∈ w.unopened y ∨ u = sealing ∧ y = sealing.sender.peer ∧
        sealing.sealed ∉ (w.openedBy y).map Opening.sealed := by
  rw [mem_unopened, mem_unopened, sealings_recordSealing, openedBy_recordSealing, List.mem_cons]
  constructor
  · rintro ⟨rfl | hmem, hsender, hnot⟩
    · exact .inr ⟨rfl, by rw [hsender, Party.peer_peer], hnot⟩
    · exact .inl ⟨hmem, hsender, hnot⟩
  · rintro (⟨hmem, hsender, hnot⟩ | ⟨rfl, rfl, hnot⟩)
    · exact ⟨.inr hmem, hsender, hnot⟩
    · exact ⟨.inl rfl, (Party.peer_peer _).symm, hnot⟩

/-- A frame with a new nonce is outstanding once it is sealed. -/
theorem Steady.unopened_recordSealing (h : Steady P sharedKey w) (s' : Session α σ)
    {sealing : Sealing α} (hnonce : sealing.sealed.nonce ∉ w.nonces) :
    sealing ∈ (w.recordSealing s' sealing).unopened sealing.sender.peer := by
  refine (mem_unopened_recordSealing _ _ _ _).mpr (.inr ⟨rfl, rfl, fun hopened => ?_⟩)
  obtain ⟨o, ho, hsealed⟩ := List.mem_map.mp hopened
  obtain ⟨t, ht, -, -, htSealed, -⟩ := h.lockstep.opened _ o ho
  refine hnonce ?_
  rw [← hsealed, ← htSealed]
  exact List.mem_map_of_mem (f := fun s => s.sealed.nonce) ht

/-- No two frames of a conversation have the same header. -/
theorem Steady.eq_of_header (h : Steady P sharedKey w) {s t : Sealing α} (hs : s ∈ w.sealings)
    (ht : t ∈ w.sealings) (hheader : s.header = t.header) : s = t := by
  have hsGenuine := h.lockstep.genuine s hs
  have htGenuine := h.lockstep.genuine t ht
  have heras := h.lockstep.eraLen_of_ratchet h.distinct hsGenuine.chain_le htGenuine.chain_le
    hsGenuine.chain_pos (by rw [hsGenuine.ratchet, htGenuine.ratchet, hheader])
  obtain ⟨hsender, hchain⟩ := Party.eraLen_inj heras
  refine h.lockstep.number_inj (mem_sentIn.mpr ⟨hs, hsender, hchain⟩)
    (mem_sentIn.mpr ⟨ht, rfl, rfl⟩) ?_
  rw [Sealing.number, Sealing.number, hheader]

end World

namespace Fuzz

/-! ## Tampered frames -/

/-- A frame with a changed byte is not a frame of the conversation. -/
theorem tampered_foreign {w : World α σ} (h : World.Steady P sharedKey w)
    (hnonces : w.nonces.Nodup) {s : Sealing α} (hs : s ∈ w.sealings) (byte : Fin sealedLen)
    {xor : UInt8} (hxor : xor ≠ 0) : ∀ t ∈ w.sealings, t.sealed ≠ tampered s.sealed byte xor := by
  intro t ht heq
  rcases tampered_cases s.sealed byte hxor with ⟨hframe, hnonce⟩ | ⟨hnonce, hframe⟩
  · -- the nonce is changed, but the header still tells the frame
    have hts : t = s := h.eq_of_header ht hs (by rw [Sealing.header, heq, hframe, Sealing.header])
    rw [← heq, hts] at hnonce
    exact hnonce rfl
  · have hts : t = s := World.eq_of_nonce hnonces ht hs (by rw [heq, hnonce])
    rw [← heq, hts] at hframe
    exact hframe rfl

/-! ## The relation -/

/-- `frame` is in flight to `x` as the sealing `s`. -/
structure Tracks (w : World α σ) (x : Party) (frame : InFlight α) (s : Sealing α) : Prop where
  sealed : frame.sealed = s.sealed
  plaintext : frame.plaintext = s.plaintext
  opened : frame.opened = false ↔ s ∈ w.unopened x

structure Shadows (P : Primitives α σ) (c : Conversation α σ) (w : World α σ) : Prop where
  steady : World.Steady P Fuzz.sharedKey w
  session : ∀ x, c.session x = w.session x
  inbox : ∀ x, List.Forall₂ (Tracks w x) (c.inbox x) (w.sentTo x)
  received : c.bobHasReceived = true ↔ 1 ≤ w.steps .responder
  sent : w.sealings.length ≤ c.sent.toNat

/-- What the RNG gives a list of steps is new: no nonce has been used, and no ratchet key
    drawn, before. -/
structure Fresh (P : Primitives α σ) (w : World α σ) (randoms : List (Random α σ)) : Prop where
  nonces : (randoms.map Random.nonce ++ w.nonces).Nodup
  ratchets : ((randoms.map Random.ratchet ++ w.ratchets).map (publicKey P)).Nodup

/-- `v` comes after `w` in one step that was given `random`. -/
structure Follows (w : World α σ) (random : Random α σ) (v : World α σ) : Prop where
  nonces : v.nonces = w.nonces ∨ v.nonces = random.nonce :: w.nonces
  ratchets : v.ratchets = w.ratchets ∨ v.ratchets = random.ratchet :: w.ratchets

theorem nodup_append_of_follows {β : Type} {b : β} {l m n : List β}
    (h : (b :: l ++ m).Nodup) (hn : n = m ∨ n = b :: m) : (l ++ n).Nodup := by
  rcases hn with rfl | rfl
  · exact (List.nodup_cons.mp h).2
  · exact List.perm_middle.nodup_iff.mpr h

namespace Fresh

variable {w v : World α σ} {random : Random α σ} {rest : List (Random α σ)}
  (h : Fresh P w (random :: rest))
include h

omit [DecidableEq α] in
theorem follows (hv : Follows w random v) : Fresh P v rest where
  nonces := nodup_append_of_follows h.nonces hv.nonces
  ratchets := by
    have hratchets := h.ratchets
    rw [List.map_append] at hratchets ⊢
    refine nodup_append_of_follows (b := publicKey P random.ratchet) hratchets ?_
    rcases hv.ratchets with heq | heq
    · exact .inl (by rw [heq])
    · exact .inr (by rw [heq, List.map_cons])

omit [DecidableEq α] in
theorem nodup_nonces : w.nonces.Nodup := h.nonces.of_append_right

omit [DecidableEq α] in
theorem nonce : random.nonce ∉ w.nonces := fun hmem =>
  (List.nodup_cons.mp h.nonces).1 (List.mem_append_right _ hmem)

omit [DecidableEq α] in
theorem ratchet : publicKey P random.ratchet ∉ w.ratchets.map (publicKey P) := fun hmem => by
  have hratchets := h.ratchets
  rw [List.map_append] at hratchets
  exact (List.nodup_cons.mp hratchets).1 (List.mem_append_right _ hmem)

end Fresh

/-! ## The start -/

section Start

variable {signedPrekey ownRatchet : σ} {w : World α σ}
  (hstart : World.start P Fuzz.sharedKey signedPrekey ownRatchet = .ok w)
include hstart

theorem sessions_start : Sessions.start P signedPrekey ownRatchet
    = .ok ⟨w.session .initiator, w.session .responder⟩ := by
  rw [World.start] at hstart
  cases halice : Session.initiatorWith P Fuzz.sharedKey (publicKey P signedPrekey) ownRatchet with
  | error e =>
    rw [halice] at hstart
    cases hstart
  | ok alice =>
    rw [halice] at hstart
    obtain rfl := Except.ok.inj hstart
    rw [Sessions.start, halice]

theorem Fresh.steady {randoms : List (Random α σ)} (hfresh : Fresh P w randoms) :
    World.Steady P Fuzz.sharedKey w := by
  refine World.Steady.start hstart ?_
  have hratchets := hfresh.ratchets
  obtain ⟨-, rfl⟩ := World.start_eq_ok_iff.mp hstart
  rw [List.map_append] at hratchets
  have hpair := hratchets.of_append_right
  simp only [List.map_cons, List.map_nil, List.nodup_cons, List.mem_singleton] at hpair
  exact hpair.1

end Start

end Fuzz

end Quietwire
