/-
  Quietwire.Network.Agreement

  What opening a frame tells, among any number of handshakes and sessions: some
  session on the other side of the same handshake sealed it, with the same
  identities, bundle and initial message in view, and no two frames that a session
  opens answer one sealing.

  A session's own calls say at which slot of its key schedule a frame was sealed or
  opened (`Sound`).  What connects two sessions is that a message key tells its slot
  and the shared key, and that the shared key tells the handshake.
-/
import Quietwire.Network.Honest
import Quietwire.Symbolic.Hybrid
import Quietwire.Symbolic.Conversation

namespace Quietwire

variable {α σ δ ρ : Type} [DecidableEq α] [Octet α] {P : Primitives α σ}
  {H : HybridPrimitives α δ ρ}

namespace Network

/-! ## The keys of all sessions -/

omit [DecidableEq α] [Octet α] in
def Record.opened? : Record α → Option (Use α)
  | .sealed _ => none
  | .opened use => some use

omit [DecidableEq α] [Octet α] in
/-- The frames that one session has opened, newest first. -/
def openedBy (net : Network α σ) (i : Nat) : List (Use α) :=
  (net.log.filterMap Record.opened?).filter fun use => use.member = i

omit [DecidableEq α] [Octet α] in
theorem mem_openedBy {net : Network α σ} {i : Nat} {use : Use α} :
    use ∈ net.openedBy i ↔ .opened use ∈ net.log ∧ use.member = i := by
  rw [openedBy, List.mem_filter, List.mem_filterMap, decide_eq_true_iff]
  refine and_congr_left fun _ => ⟨?_, fun h => ⟨_, h, rfl⟩⟩
  rintro ⟨record, hrecord, huse⟩
  cases record with
  | sealed sealing => cases huse
  | opened opening =>
    obtain rfl := Option.some.inj huse
    exact hrecord

/-- A frame was used at a slot whose depth has, or has not, the parity of its member's side. -/
structure UsedAt (P : Primitives α σ) (H : HybridPrimitives α δ ρ) (net : Network α σ)
    (use : Use α) (slot : Slot α) : Prop where
  member : ∃ m, net.members[use.member]? = some m ∧ m.view = use.view ∧ m.input = use.input
  key : use.key = some (slot.key P (use.input.sharedKey P H))

/-- Every session's keys follow from its own shared key, and the log has the slots at which
    it has sealed and opened. -/
structure Sound (P : Primitives α σ) (H : HybridPrimitives α δ ρ) (net : Network α σ) :
    Prop where
  scheduled : ∀ i m, net.members[i]? = some m → ∃ agreed slots,
    (net.openedBy i).map Use.key
      = slots.map (fun slot => some (slot.key P (m.input.sharedKey P H))) ∧
    m.session.Scheduled P (m.input.sharedKey P H) m.view.side agreed slots
  transcripts : ∀ m ∈ net.members, m.input.transcriptBytes
    = transcriptBytes m.view.initiator m.view.bundle m.view.message
  sealedAt : ∀ use, .sealed use ∈ net.log → ∃ slot, UsedAt P H net use slot ∧
    slot.depth % 2 = use.view.side.turn
  openedAt : ∀ use, .opened use ∈ net.log → ∃ slot, UsedAt P H net use slot ∧
    slot.depth % 2 ≠ use.view.side.turn

omit [DecidableEq α] in
theorem sound_empty : Sound P H (empty : Network α σ) where
  scheduled i m h := by simp [empty] at h
  transcripts := nofun
  sealedAt := nofun
  openedAt := nofun

/-! ## What an event leaves of the sessions -/

omit [DecidableEq α] [Octet α] in
/-- The members of `net` are still there, with their handshakes. -/
def Kept (net net' : Network α σ) : Prop :=
  ∀ (i : Nat) (m : Member α σ), net.members[i]? = some m →
    ∃ m' : Member α σ, net'.members[i]? = some m' ∧ m'.view = m.view ∧ m'.input = m.input

omit [DecidableEq α] [Octet α] in
theorem getElem?_set_session {members : List (Member α σ)} {i : Nat} {m : Member α σ}
    (h : members[i]? = some m) (session : Session α σ) (j : Nat) :
    (members.set i { m with session })[j]?
      = if i = j then some { m with session } else members[j]? := by
  obtain ⟨hi, -⟩ := List.getElem?_eq_some_iff.mp h
  simp only [List.getElem?_set, hi, if_true]

theorem Change.kept {net net' : Network α σ} {event : Event α σ δ ρ}
    (h : Change P H net event net') : Kept net net' := by
  intro j n hn
  have hcalled : ∀ {i : Nat} {m : Member α σ} (session : Session α σ),
      net.members[i]? = some m →
      ∃ m' : Member α σ, (net.members.set i { m with session })[j]? = some m' ∧ m'.view = n.view ∧
        m'.input = n.input := by
    intro i m session hm
    rw [getElem?_set_session hm]
    split
    · next hij =>
      subst hij
      obtain rfl := Option.some.inj (hm.symm.trans hn)
      exact ⟨_, rfl, rfl, rfl⟩
    · exact ⟨n, hn, rfl, rfl⟩
  cases h with
  | nothing => exact ⟨n, hn, rfl, rfl⟩
  | started starts =>
    refine ⟨n, ?_, rfl, rfl⟩
    have hlt := (List.getElem?_eq_some_iff.mp hn).1
    exact (List.getElem?_append_left hlt).trans hn
  | sealed member run => exact hcalled _ member
  | opened member run => exact hcalled _ member

omit [DecidableEq α] in
theorem UsedAt.mono {net net' : Network α σ} {use : Use α} {slot : Slot α}
    (h : UsedAt P H net use slot) (hkept : Kept net net') : UsedAt P H net' use slot := by
  obtain ⟨m, hm, hview, hinput⟩ := h.member
  obtain ⟨m', hm', hview', hinput'⟩ := hkept _ _ hm
  exact ⟨⟨m', hm', hview'.trans hview, hinput'.trans hinput⟩, h.key⟩

/-- What the handshakes fed to the hashes is only added to. -/
theorem inputs_step (net : Network α σ) (event : Event α σ δ ρ) :
    net.inputs ⊆ (net.step P H event).1.inputs := by
  rintro a ⟨m, hm, rfl⟩
  obtain ⟨i, hi⟩ := List.getElem?_of_mem hm
  obtain ⟨m', hm', -, hinput⟩ := (step_change P H net event).kept i m hi
  exact ⟨m', List.mem_of_getElem? hm', hinput⟩

omit [DecidableEq α] in
theorem Sound.mem_inputs {net : Network α σ} {use : Use α} {slot : Slot α}
    (h : UsedAt P H net use slot) : use.input ∈ net.inputs := by
  obtain ⟨m, hm, -, hinput⟩ := h.member
  exact ⟨m, List.mem_of_getElem? hm, hinput⟩

omit [DecidableEq α] in
theorem Sound.transcript {net : Network α σ} (h : Sound P H net) {use : Use α} {slot : Slot α}
    (hused : UsedAt P H net use slot) : use.input.transcriptBytes
      = transcriptBytes use.view.initiator use.view.bundle use.view.message := by
  obtain ⟨m, hm, hview, hinput⟩ := hused.member
  rw [← hinput, ← hview]
  exact h.transcripts m (List.mem_of_getElem? hm)

omit [DecidableEq α] [Octet α] in
theorem mem_set_session {members : List (Member α σ)} {i : Nat} {m n : Member α σ}
    (hm : members[i]? = some m) {session : Session α σ}
    (hn : n ∈ members.set i { m with session }) :
    ∃ n' ∈ members, n'.view = n.view ∧ n'.input = n.input := by
  rcases List.mem_or_eq_of_mem_set hn with hold | rfl
  · exact ⟨n, hold, rfl, rfl⟩
  · exact ⟨m, List.mem_of_getElem? hm, rfl, rfl⟩

omit [DecidableEq α] in
theorem Sound.sealedAt_kept {net net' : Network α σ} (h : Sound P H net) (hkept : Kept net net') :
    ∀ use, .sealed use ∈ net.log → ∃ slot, UsedAt P H net' use slot ∧
      slot.depth % 2 = use.view.side.turn := by
  intro use huse
  obtain ⟨slot, hused, hdepth⟩ := h.sealedAt use huse
  exact ⟨slot, hused.mono hkept, hdepth⟩

omit [DecidableEq α] in
theorem Sound.openedAt_kept {net net' : Network α σ} (h : Sound P H net) (hkept : Kept net net') :
    ∀ use, .opened use ∈ net.log → ∃ slot, UsedAt P H net' use slot ∧
      slot.depth % 2 ≠ use.view.side.turn := by
  intro use huse
  obtain ⟨slot, hused, hdepth⟩ := h.openedAt use huse
  exact ⟨slot, hused.mono hkept, hdepth⟩

omit [DecidableEq α] in
theorem Sound.transcripts_set {net : Network α σ} (h : Sound P H net) {i : Nat} {m : Member α σ}
    (member : net.members[i]? = some m) (session : Session α σ) :
    ∀ n ∈ net.members.set i { m with session }, n.input.transcriptBytes
      = transcriptBytes n.view.initiator n.view.bundle n.view.message := by
  intro n hn
  obtain ⟨n', hn', hview, hinput⟩ := mem_set_session member hn
  rw [← hview, ← hinput]
  exact h.transcripts n' hn'

omit [DecidableEq α] in
/-- Only a session that is there has opened frames. -/
theorem Sound.openedBy_eq_nil {net : Network α σ} (h : Sound P H net) {i : Nat}
    (hi : net.members.length ≤ i) : net.openedBy i = [] := by
  refine List.eq_nil_iff_forall_not_mem.mpr fun use huse => ?_
  obtain ⟨hlogged, rfl⟩ := mem_openedBy.mp huse
  obtain ⟨slot, hused, -⟩ := h.openedAt use hlogged
  obtain ⟨m, hm, -⟩ := hused.member
  exact absurd (List.getElem?_eq_some_iff.mp hm).1 (Nat.not_lt_of_le hi)

theorem Sound.change {net net' : Network α σ} {event : Event α σ δ ρ} (h : Sound P H net)
    (hchange : Change P H net event net') : Sound P H net' := by
  have hkept := hchange.kept
  cases hchange with
  | nothing => exact h
  | @started _ m starts =>
    refine ⟨?_, ?_, ?_, ?_⟩
    · intro i n hn
      by_cases hlt : i < net.members.length
      · rw [List.getElem?_append_left hlt] at hn
        exact h.scheduled i n hn
      · -- nothing was logged yet for the new session
        rw [List.getElem?_append_right (by omega), List.getElem?_singleton] at hn
        obtain ⟨hi, rfl⟩ : i - net.members.length = 0 ∧ m = n := by
          by_cases hzero : i - net.members.length = 0
          · rw [if_pos hzero] at hn
            exact ⟨hzero, Option.some.inj hn⟩
          · rw [if_neg hzero] at hn
            cases hn
        obtain ⟨agreed, hscheduled⟩ := starts.scheduled
        have hnone : openedBy { net with members := net.members ++ [m] } i = [] :=
          h.openedBy_eq_nil (Nat.le_of_not_lt hlt)
        refine ⟨agreed, [], ?_, hscheduled⟩
        rw [hnone]
        rfl
    · intro n hn
      rcases List.mem_append.mp hn with hold | hnew
      · exact h.transcripts n hold
      · obtain rfl := List.mem_singleton.mp hnew
        exact starts.transcript
    · exact h.sealedAt_kept hkept
    · exact h.openedAt_kept hkept
  | @sealed i m nonce plaintext sealed session chain member run =>
    obtain ⟨agreed, slots, hslots, hscheduled⟩ := h.scheduled i m member
    obtain ⟨⟨slot, hslot, hdepth⟩, hafter⟩ := hscheduled.sealed run
    refine ⟨?_, ?_, ?_, ?_⟩
    · intro j n hn
      simp only [getElem?_set_session member] at hn
      split at hn
      · next hij =>
        subst hij
        obtain rfl := Option.some.inj hn
        exact ⟨agreed, slots, hslots, hafter⟩
      · exact h.scheduled j n hn
    · exact h.transcripts_set member session
    · intro use huse
      rcases List.mem_cons.mp huse with heq | hold
      · cases heq
        obtain ⟨m', hm', hview, hinput⟩ := hkept i m member
        exact ⟨slot, ⟨⟨m', hm', hview, hinput⟩, congrArg some hslot⟩, hdepth⟩
      · exact h.sealedAt_kept hkept use hold
    · intro use huse
      rcases List.mem_cons.mp huse with heq | hold
      · cases heq
      · exact h.openedAt_kept hkept use hold
  | @opened i m sealed random plaintext key session member run =>
    obtain ⟨agreed, slots, hslots, hscheduled⟩ := h.scheduled i m member
    obtain ⟨agreed', slot, rfl, hdepth, hafter⟩ := hscheduled.decrypted run
    refine ⟨?_, ?_, ?_, ?_⟩
    · intro j n hn
      simp only [getElem?_set_session member] at hn
      split at hn
      · next hij =>
        subst hij
        obtain rfl := Option.some.inj hn
        refine ⟨agreed', slot :: slots, ?_, hafter⟩
        simp only [openedBy, List.filterMap_cons, Record.opened?, List.filter_cons, decide_true,
          if_true, List.map_cons] at hslots ⊢
        rw [hslots]
      · next hij =>
        obtain ⟨agreed'', slots', hslots', hscheduled'⟩ := h.scheduled j n hn
        refine ⟨agreed'', slots', ?_, hscheduled'⟩
        simp only [openedBy, List.filterMap_cons, Record.opened?, List.filter_cons, hij,
          decide_false, Bool.false_eq_true, if_false] at hslots' ⊢
        exact hslots'
    · exact h.transcripts_set member session
    · intro use huse
      rcases List.mem_cons.mp huse with heq | hold
      · cases heq
      · exact h.sealedAt_kept hkept use hold
    · intro use huse
      rcases List.mem_cons.mp huse with heq | hold
      · cases heq
        obtain ⟨m', hm', hview, hinput⟩ := hkept i m member
        exact ⟨slot, ⟨⟨m', hm', hview, hinput⟩, rfl⟩, hdepth⟩
      · exact h.openedAt_kept hkept use hold

theorem sound_reaches {secret : KeyInput α → Prop} {net net' : Network α σ}
    (hreaches : Reaches P H secret net net') (h : Sound P H net) : Sound P H net' :=
  hreaches.invariant (fun v event hv _ => hv.change (step_change P H v event)) h

/-! ## Sealings and openings -/

/-- A sealing answers an opening: the other side of the same handshake sealed the frame. -/
structure Use.Answers (s o : Use α) : Prop where
  view : o.view.Matches s.view
  key : s.key = o.key
  sealed : s.sealed = o.sealed
  plaintext : s.plaintext = o.plaintext

omit [DecidableEq α] in
/-- Two frames used under one key were used on the two sides of one handshake, if their
    slots are of different parity. -/
theorem Sound.matches {inputs : Set (KeyInput α)} (free : FreeKdf P)
    (collisionFree : CollisionFree P H inputs)
    (fresh : ∀ a ∈ inputs, FreshSharedKey P (a.sharedKey P H)) {net : Network α σ}
    (h : Sound P H net) (hinputs : net.inputs ⊆ inputs) {s o : Use α} {slot slot' : Slot α}
    (hs : UsedAt P H net s slot) (hsDepth : slot.depth % 2 = s.view.side.turn)
    (ho : UsedAt P H net o slot') (hoDepth : slot'.depth % 2 ≠ o.view.side.turn)
    (hkey : s.key = o.key) : o.view.Matches s.view := by
  have hsInputs := hinputs (Sound.mem_inputs hs)
  have hoInputs := hinputs (Sound.mem_inputs ho)
  have hslots := Option.some.inj (hs.key.symm.trans (hkey.trans ho.key))
  obtain ⟨hshared, rfl⟩ := Slot.key_inj free (fresh _ hsInputs) (fresh _ hoInputs) hslots
  have hinput := collisionFree.sharedKey_inj hsInputs hoInputs hshared
  have htranscript : transcriptBytes s.view.initiator s.view.bundle s.view.message
      = transcriptBytes o.view.initiator o.view.bundle o.view.message := by
    rw [← h.transcript hs, ← h.transcript ho, hinput]
  obtain ⟨hinitiator, hbundle, hmessage⟩ := transcriptBytes_inj htranscript
  exact ⟨Party.eq_peer_of_turn (hsDepth ▸ hoDepth), hinitiator, hbundle, hmessage⟩

/-- Every frame opened under the key of a `secret` input had been sealed on the other side
    of its handshake. -/
def Agreed (secret : KeyInput α → Prop) (log : List (Record α)) : Prop :=
  ∀ o before, (.opened o :: before) <:+ log → secret o.input →
    ∃ s, .sealed s ∈ before ∧ s.Answers o

theorem agreed_step {inputs : Set (KeyInput α)} (free : FreeKdf P)
    (collisionFree : CollisionFree P H inputs)
    (fresh : ∀ a ∈ inputs, FreshSharedKey P (a.sharedKey P H))
    {secret : KeyInput α → Prop} {net : Network α σ} {event : Event α σ δ ρ}
    (h : Sound P H net) (hagreed : Agreed secret net.log) (hunforged : net.Unforged P secret event)
    (hinputs : (net.step P H event).1.inputs ⊆ inputs) :
    Agreed secret (net.step P H event).1.log := by
  have hchange := step_change P H net event
  have hsound := h.change hchange
  generalize (net.step P H event).1 = net' at hchange hsound hinputs
  cases hchange with
  | nothing => exact hagreed
  | started starts => exact hagreed
  | sealed member run =>
    intro o before hsuffix hsecret
    rcases List.suffix_cons_iff.mp hsuffix with heq | hold
    · cases heq
    · exact hagreed o before hold hsecret
  | @opened i m sealed random plaintext key session member run =>
    intro o before hsuffix hsecret
    rcases List.suffix_cons_iff.mp hsuffix with heq | hold
    · obtain ⟨hopened, rfl⟩ := List.cons.inj heq
      cases hopened
      -- the frame that opens was sealed somewhere in the network
      obtain ⟨s, hs, hkey, hnonce, haad, hciphertext, rfl⟩ :=
        hunforged m member hsecret key plaintext run.messageKeyFor run.opens
      obtain ⟨slot, hsUsed, hsDepth⟩ := hsound.sealedAt s (List.mem_cons_of_mem _ hs)
      obtain ⟨slot', hoUsed, hoDepth⟩ := hsound.openedAt _ List.mem_cons_self
      exact ⟨s, hs, hsound.matches free collisionFree fresh hinputs hsUsed hsDepth hoUsed hoDepth
        hkey, hkey, SealedFrame.ext_parts hnonce haad hciphertext, rfl⟩
    · exact hagreed o before hold hsecret

theorem agreed_reaches {inputs : Set (KeyInput α)} (free : FreeKdf P)
    (collisionFree : CollisionFree P H inputs)
    (fresh : ∀ a ∈ inputs, FreshSharedKey P (a.sharedKey P H))
    {secret : KeyInput α → Prop} {net : Network α σ} (hreaches : Reaches P H secret empty net)
    (hinputs : net.inputs ⊆ inputs) : Agreed secret net.log := by
  induction hreaches with
  | refl =>
    intro o before hsuffix
    cases List.suffix_nil.mp hsuffix
  | @tail net event hreaches hunforged ih =>
    have hagreed := ih ((inputs_step net event).trans hinputs)
    exact agreed_step free collisionFree fresh (sound_reaches hreaches sound_empty) hagreed
      hunforged hinputs

omit [DecidableEq α] in
/-- One session opens no two frames under one key. -/
theorem Sound.nodup_keys (free : FreeKdf P) {net : Network α σ} (h : Sound P H net)
    (fresh : ∀ a ∈ net.inputs, FreshSharedKey P (a.sharedKey P H)) (i : Nat) :
    ((net.openedBy i).map Use.key).Nodup := by
  by_cases hempty : net.openedBy i = []
  · rw [hempty]
    exact List.nodup_nil
  · obtain ⟨use, huse⟩ := List.exists_mem_of_ne_nil _ hempty
    obtain ⟨hlogged, rfl⟩ := mem_openedBy.mp huse
    obtain ⟨slot, hused, -⟩ := h.openedAt use hlogged
    obtain ⟨m, hm, -, -⟩ := hused.member
    obtain ⟨agreed, slots, hslots, hscheduled⟩ := h.scheduled _ m hm
    obtain ⟨stored, -, hnodup, -⟩ := hscheduled.stored
    have hfresh := fresh m.input ⟨m, List.mem_of_getElem? hm, rfl⟩
    rw [hslots]
    refine (List.nodup_append.mp hnodup).2.1.map ?_
    intro a b hab
    exact (Slot.key_inj free hfresh hfresh (Option.some.inj hab)).2

omit [DecidableEq α] [Octet α] in
/-- What was answered one by one was answered by sealings with the same keys. -/
theorem exists_origins {log : List (Record α)} {openings : List (Use α)}
    (hanswered : ∀ o ∈ openings, ∃ s, .sealed s ∈ log ∧ s.Answers o) :
    ∃ origins, List.Forall₂ (fun o s => Use.Answers s o) openings origins ∧
      origins.map Use.key = openings.map Use.key ∧ ∀ s ∈ origins, .sealed s ∈ log := by
  induction openings with
  | nil => exact ⟨[], .nil, rfl, fun _ h => absurd h List.not_mem_nil⟩
  | cons o openings ih =>
    obtain ⟨origins, hforall, hkeys, hlogged⟩ :=
      ih fun o' ho' => hanswered o' (List.mem_cons_of_mem _ ho')
    obtain ⟨s, hs, hanswers⟩ := hanswered o List.mem_cons_self
    refine ⟨s :: origins, .cons hanswers hforall, ?_, ?_⟩
    · rw [List.map_cons, List.map_cons, hanswers.key, hkeys]
    · intro s' hs'
      rcases List.mem_cons.mp hs' with rfl | hold
      · exact hs
      · exact hlogged s' hold

end Network

/-- Agreement in the network.  Any number of handshakes, honest or not, start any number of
    sessions, which call in any order on any frames.  A frame that a session opens had been
    sealed, with that plaintext, by a session on the other side of the same handshake: both
    hold the same initiator, the same bundle and the same initial message.  And the frames
    that one session opens answer pairwise different sealings. -/
theorem network_agreement (free : FreeKdf P) (secret : KeyInput α → Prop) (net : Network α σ)
    (hreaches : Network.Reaches P H secret Network.empty net)
    (collisionFree : CollisionFree P H net.inputs)
    (fresh : ∀ a ∈ net.inputs, FreshSharedKey P (a.sharedKey P H)) :
    (∀ o before, (.opened o :: before) <:+ net.log → secret o.input →
      ∃ s, .sealed s ∈ before ∧ o.view.Matches s.view ∧ s.sealed = o.sealed ∧
        s.plaintext = o.plaintext) ∧
    ∀ i, (∀ o ∈ net.openedBy i, secret o.input) →
      ∃ origins, List.Forall₂ (fun o s => Network.Use.Answers s o) (net.openedBy i) origins ∧
        origins.Nodup ∧ ∀ s ∈ origins, .sealed s ∈ net.log := by
  have hsound := Network.sound_reaches hreaches Network.sound_empty
  have hagreed := Network.agreed_reaches free collisionFree fresh hreaches subset_rfl
  constructor
  · intro o before hsuffix hsecret
    obtain ⟨s, hs, hanswers⟩ := hagreed o before hsuffix hsecret
    exact ⟨s, hs, hanswers.view, hanswers.sealed, hanswers.plaintext⟩
  · intro i hsecret
    have hanswered : ∀ o ∈ net.openedBy i, ∃ s, .sealed s ∈ net.log ∧ s.Answers o := by
      intro o ho
      obtain ⟨before, after, hlog⟩ := List.append_of_mem (Network.mem_openedBy.mp ho).1
      have hsuffix : (.opened o :: after) <:+ net.log := hlog ▸ List.suffix_append _ _
      obtain ⟨s, hs, hanswers⟩ := hagreed o after hsuffix (hsecret o ho)
      exact ⟨s, hsuffix.subset (List.mem_cons_of_mem _ hs), hanswers⟩
    obtain ⟨origins, hforall, hkeys, hlogged⟩ := Network.exists_origins hanswered
    refine ⟨origins, hforall, List.Nodup.of_map Network.Use.key ?_, hlogged⟩
    rw [hkeys]
    exact hsound.nodup_keys free fresh i

/-- A frame opened between two honest sides. -/
theorem network_agreement_symbolic :
    ∃ (net : Network Symbolic.Letter Nat) (o s : Network.Use Symbolic.Letter),
      .opened o ∈ net.log ∧ .sealed s ∈ net.log ∧ o.view.Matches s.view ∧ s.sealed = o.sealed := by
  obtain ⟨net, o, hreaches, ho, -⟩ := Network.exists_opened Symbolic.correct Symbolic.correctKem
    Symbolic.total Symbolic.exchange.initiator Symbolic.exchange.responder rfl ⟨rfl, rfl⟩ 5 7 8 6
    Symbolic.nonce Symbolic.plaintext (Network.Unforged Symbolic.primitives fun _ => True)
    (fun _ => trivial) (fun _ _ => trivial) (fun _ _ => trivial) (by
      intro net use s s' chain random huse run hkey m hm _ key opened _ hopens
      obtain ⟨rfl, rfl⟩ := Symbolic.opens_sealed_only run hopens
      exact ⟨use, huse, hkey, rfl, rfl, rfl, rfl⟩)
  obtain ⟨hanswered, -⟩ := network_agreement Symbolic.free (fun _ => True) net hreaches
    (Symbolic.collisionFree.mono (Set.subset_univ _)) fun a _ => Symbolic.fresh_sharedKey a
  obtain ⟨before, after, hlog⟩ := List.append_of_mem ho
  have hsuffix : (.opened o :: after) <:+ net.log := hlog ▸ List.suffix_append _ _
  obtain ⟨s, hs, hmatch, hsealed, -⟩ := hanswered o after hsuffix trivial
  exact ⟨net, o, s, ho, hsuffix.subset (List.mem_cons_of_mem _ hs), hmatch, hsealed⟩

end Quietwire
