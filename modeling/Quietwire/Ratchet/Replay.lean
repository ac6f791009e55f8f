/-
  Quietwire.Ratchet.Replay

  What a session answers to a frame it has already opened.  A replay in a chain that
  it has left is taken for a frame of a new one: the limits on skipped keys are
  checked before the frame is authenticated, and a replay that is beyond one of
  them is reported as `TooFarAhead`.
-/
import Quietwire.Ratchet.Refusal
import Quietwire.Symbolic.Schedules

namespace Quietwire

variable {α σ : Type} [DecidableEq α] [Octet α] {P : Primitives α σ} {sharedKey : SecretKey α}
  {naming : Naming}

namespace World

variable {w : World α σ} {x : Party} {s : Sealing α}

/-! ## Frames that are gone -/

/-- The session has passed the frame and does not store its key. -/
structure Gone (w : World α σ) (x : Party) (s : Sealing α) : Prop where
  passed : w.Passed x s
  notStored : (w.session x).skipped.position s.header = none

section Gone

variable (h : Lockstep P sharedKey naming w) (hdistinct : (w.ratchets.map (publicKey P)).Nodup)
  (hs : s ∈ w.sealings) (hsender : s.sender = x.peer)

include h hs hsender hdistinct in
/-- An opened frame is gone. -/
theorem Lockstep.gone_of_opened
    (hopened : s.sealed ∈ (w.openedBy x).map Opening.sealed) : w.Gone x s := by
  obtain ⟨hpassed, hname⟩ := h.passed_of_opened hdistinct hs hsender hopened
  refine ⟨hpassed, (SkippedKeys.position_eq_none_iff _ _).mpr fun e he hfor => ?_⟩
  obtain ⟨hstored, -⟩ := h.storedFor_of_isFor hdistinct hs hsender he hfor
  obtain ⟨-, -, -, hunopened⟩ := h.stored x e he
  rw [← hstored.name_eq naming] at hunopened
  exact hunopened hname

omit [DecidableEq α] in
include h hs in
/-- A session that has passed a frame has a receiving chain. -/
theorem Lockstep.exists_receiving_of_passed (hpassed : w.Passed x s) : ∃ chain,
    (w.session x).receiving = some chain ∧ chain.next.toNat = w.received x := by
  have hpos := (h.genuine s hs).chain_pos
  have hsteps : 1 ≤ w.steps x := by
    rcases hpassed with hlt | ⟨heq, -⟩
    · omega
    · omega
  have hlen := h.length_era (h.steps_le x).1
  rcases era_cases (w.eraOf x.peer (w.steps x)) with hshort | ⟨own, remote, rest, hera⟩
  · exfalso
    rw [hlen] at hshort
    cases x <;> simp only [Party.eraLen, Party.peer] at hshort <;> omega
  · have hreceiving := (h.synced x).receiving
    rw [hera, startKeyOf_cons_cons, Option.map_some] at hreceiving
    obtain ⟨-, -, -, hnext⟩ := h.receiving_eq hreceiving
    exact ⟨_, hreceiving, hnext⟩

omit [DecidableEq α] in
include h hs hsender hdistinct in
/-- A passed frame under the ratchet key that the session holds is behind in its chain. -/
theorem Lockstep.number_lt_of_passed (hpassed : w.Passed x s)
    (hremote : (w.session x).remoteRatchet = some s.header.ratchet) :
    s.number < w.received x := by
  have hratchet := (h.genuine s hs).ratchet
  have hle := (h.genuine s hs).chain_le
  rw [hsender] at hratchet hle
  rw [(h.synced x).remote, ← hratchet] at hremote
  rcases hpassed with hlt | ⟨-, hlt⟩
  · have hchain := h.chain_of_ratchet hdistinct hle (h.steps_le x).1 (h.genuine s hs).chain_pos
      hremote.symm
    omega
  · exact hlt

end Gone

/-! ## The answer to a frame that is gone -/

/-- A replay that no limit on skipped keys stands against: it is in the chain that the session
    receives now, or its header, taken for that of a new chain, asks for at most 1 000 keys of
    either chain. -/
def WithinLimits (w : World α σ) (x : Party) (header : Header α) : Prop :=
  (w.session x).remoteRatchet = some header.ratchet ∨
    header.previousChainLen.toNat - w.received x ≤ 1000 ∧ header.messageNumber.toNat ≤ 1000

section Refused

variable (h : Lockstep P sharedKey .byKey w) (free : FreeKdf P)
  (fresh : FreshSharedKey P sharedKey) (hdistinct : (w.ratchets.map (publicKey P)).Nodup)
  (hs : s ∈ w.sealings) (hsender : s.sender = x.peer) {own : σ}

include h hdistinct hs hsender

include free fresh in
/-- A frame that is gone does not open. -/
theorem Lockstep.gone_refused (hgone : w.Gone x s)
    (hunforged : w.Unforged P (.decrypt x s.sealed (.ok own)))
    {plaintext : Plaintext α} {key : Key α} {s' : Session α σ}
    (run : Session.Decrypted P (w.session x) s.sealed (.ok own) plaintext key s') : False := by
  have hkept := h.kept_of_decrypted free fresh hdistinct hs hsender hunforged run
  obtain ⟨e, he, hstored⟩ := hkept hgone.passed
  obtain ⟨index, hposition⟩ := hstored.exists_position he
  rw [hgone.notStored] at hposition
  cases hposition

/-- A frame that is gone fails to authenticate within the limits, and is reported as too far
    ahead beyond them. -/
theorem Lockstep.refused_gone (correct : CorrectPrimitives P) (hgone : w.Gone x s) {e : Error}
    (hrefused : Session.Refused P (w.session x) s.sealed (.ok own) e) :
    (e = .crypto .authentication ∧ w.WithinLimits x s.header) ∨
      (e = .tooFarAhead ∧ ¬ w.WithinLimits x s.header) := by
  obtain ⟨chain, hreceiving, hnext⟩ := h.exists_receiving_of_passed hs hgone.passed
  obtain ⟨remoteOwn, hremoteOwn⟩ := h.exists_publicKey hs
  have hgenuine := h.genuine s hs
  cases hrefused with
  | skipped found stored closed =>
    rw [← Sealing.header, hgone.notStored] at found
    cases found
  | noChain missing remote receiving => exact .inl ⟨rfl, .inl remote⟩
  | passed missing remote receiving number => exact .inl ⟨rfl, .inl remote⟩
  | @farCurrent chain' missing remote receiving far =>
    -- a passed frame of the current chain is behind, not ahead
    have hbehind := h.number_lt_of_passed hdistinct hs hsender hgone.passed remote
    obtain rfl := Option.some.inj (hreceiving.symm.trans receiving)
    have hlimit := hgenuine.belowLimit
    rw [← Sealing.header, ← Sealing.number, hnext] at far
    omega
  | forgedCurrent missing remote closed => exact .inl ⟨rfl, .inl remote⟩
  | @farPrevious chain' missing remote receiving far =>
    have hprevious := hgenuine.previous
    have hlen := h.length_sentIn_le s.sender (s.chain - 1)
    obtain rfl := Option.some.inj (hreceiving.symm.trans receiving)
    rw [← Sealing.header, hnext] at far
    refine .inr ⟨rfl, ?_⟩
    rintro (hsame | ⟨hnear, -⟩)
    · exact remote hsame
    · omega
  | lowOrder missing remote zero =>
    rw [← Sealing.header, hremoteOwn] at zero
    exact absurd zero (correct.contributory _ _)
  | noKey missing remote generated => cases generated
  | lowOrderNext missing remote generated zero =>
    rw [← Sealing.header, hremoteOwn] at zero
    exact absurd zero (correct.contributory _ _)
  | farNext missing remote far =>
    refine .inr ⟨rfl, ?_⟩
    rintro (hsame | ⟨-, hnear⟩)
    · exact remote hsame
    · exact Nat.not_lt.mpr hnear far
  | forgedNext missing remote near closes receivingKeys closed =>
    have hcloses := closes chain hreceiving
    rw [hnext] at hcloses
    exact .inl ⟨rfl, .inr ⟨hcloses, near⟩⟩

include free fresh in
/-- What `decrypt` returns for a frame that is gone, the RNG working. -/
theorem Lockstep.output_gone (correct : CorrectPrimitives P) (lengths : TagRemoved P)
    (hgone : w.Gone x s) (hunforged : w.Unforged P (.decrypt x s.sealed (.ok own))) :
    ((w.step P (.decrypt x s.sealed (.ok own))).2
        = .opened (.error (.error (.crypto .authentication))) ∧ w.WithinLimits x s.header) ∨
      ((w.step P (.decrypt x s.sealed (.ok own))).2 = .opened (.error (.error .tooFarAhead)) ∧
        ¬ w.WithinLimits x s.header) := by
  cases hrun : Session.decrypt P s.sealed (.ok own) (w.session x) with
  | ok plaintext s' =>
    obtain ⟨key, hdecrypted⟩ := (Session.decryptWith_eq_ok_iff P _ _ _ _ _).mp hrun
    exact (h.gone_refused free fresh hdistinct hs hsender hgone hunforged hdecrypted).elim
  | error failure s' =>
    obtain ⟨e, rfl, hrefused⟩ := Session.refused_of_error lengths hrun
    rw [World.step, World.decrypt_of_error P hrun]
    rcases h.refused_gone hdistinct hs hsender correct hgone hrefused with
      ⟨rfl, hwithin⟩ | ⟨rfl, hbeyond⟩
    · exact .inl ⟨rfl, hwithin⟩
    · exact .inr ⟨rfl, hbeyond⟩

include free fresh in
/-- What `decrypt` returns for a replay, the RNG working. -/
theorem Lockstep.output_replay (hopened : s.sealed ∈ (w.openedBy x).map Opening.sealed)
    (correct : CorrectPrimitives P) (lengths : TagRemoved P)
    (hunforged : w.Unforged P (.decrypt x s.sealed (.ok own))) :
    ((w.step P (.decrypt x s.sealed (.ok own))).2
        = .opened (.error (.error (.crypto .authentication))) ∧ w.WithinLimits x s.header) ∨
      ((w.step P (.decrypt x s.sealed (.ok own))).2 = .opened (.error (.error .tooFarAhead)) ∧
        ¬ w.WithinLimits x s.header) :=
  h.output_gone free fresh hdistinct hs hsender correct lengths
    (h.gone_of_opened hdistinct hs hsender hopened) hunforged

end Refused

end World

/-! ## Two replays -/

namespace Symbolic

/-- The responder has opened the frames 500 and 1 001 of the initiator's first chain, and the
    first frame of its second. -/
theorem exists_long_chain : ∃ (w₀ w : World Letter Nat) (near far : Sealing Letter),
    World.start primitives Symbolic.sharedKey 1 2 = .ok w₀ ∧ World.Reaches primitives w₀ w ∧
    (w.ratchets.map (publicKey primitives)).Nodup ∧
    (∀ s, s = near ∨ s = far → s ∈ w.sealings ∧ s.sender = .initiator ∧
      s.sealed ∈ (w.openedBy .responder).map Opening.sealed) ∧
    w.WithinLimits .responder near.header ∧ ¬ w.WithinLimits .responder far.header := by
  -- the initiator seals 1 002 frames, of which two arrive
  obtain ⟨w₀, w₁, c⟩ := exists_firstChain 1002 (by decide)
  obtain ⟨near, hnear, hnumber⟩ := c.exists_frame (i := 500) (by decide)
  obtain ⟨far, hfar, hfarNumber⟩ := c.exists_frame (i := 1001) (by decide)
  obtain ⟨r₂, a₂, hchain₂, hempty₂⟩ := c.opens hnear (by rw [hnumber]; decide)
  have hnearChain := (World.mem_sentIn.mp hnear).2.2
  have hfarChain := (World.mem_sentIn.mp hfar).2.2
  have hsent₂ := a₂.sentIn
  obtain ⟨o₂, ho₂, hopened₂⟩ := a₂.openedBy_self
  generalize (w₁.step primitives (.decrypt .responder near.sealed (.ok 3))).1 = w₂ at *
  obtain ⟨r₃, a₃⟩ := r₂.opens_current .responder (a₂.steps.trans hnearChain)
    (show far ∈ w₂.sentIn .initiator 1 by rw [hsent₂]; exact hfar)
    (by rw [a₂.received, hnumber, hfarNumber]; decide)
    (by rw [a₂.received, hnumber, hfarNumber]; decide) 4 (by decide)
  have hsent₃ := a₃.sentIn
  obtain ⟨o₃, ho₃, hopened₃⟩ := a₃.openedBy_self
  generalize (w₂.step primitives (.decrypt .responder far.sealed (.ok 4))).1 = w₃ at *
  -- a reply, and the first frame of the initiator's second chain
  have hchain₃ : w₃.sendingChain .responder = 1 := a₃.steps.trans hfarChain
  obtain ⟨w₄, r₄, m₄, -, hreply⟩ := r₃.seals .responder _ 1 hchain₃ (by decide)
    (by rw [hsent₃]; exact hempty₂) (by decide)
  obtain ⟨reply, hreply, hreplyNumber⟩ := hreply 0 (by decide)
  have hother₂ : w₂.steps .initiator = w₁.steps .initiator := a₂.stepsElse
  have hother₃ : w₃.steps .initiator = w₂.steps .initiator := a₃.stepsElse
  have hsteps₄ : w₄.steps .initiator = 0 := by
    rw [m₄.steps, hother₃, hother₂, c.steps]
  obtain ⟨r₅, a₅⟩ := r₄.opens_next .initiator hsteps₄ hreply (by rw [hreplyNumber]; decide)
    (by rw [r₄.lockstep.sentIn_zero]; exact Nat.zero_le _) 4 (by decide)
  have hreplyChain := (World.mem_sentIn.mp hreply).2.2
  obtain ⟨hchain₅, hempty₅⟩ := a₅.sending_next r₄.lockstep (by rw [hreplyChain, hsteps₄])
  have hsent₅ := a₅.sentIn
  have hother₅ : _ = w₄.steps .responder := a₅.stepsElse
  have hreceived₅ : _ = w₄.received .responder := a₅.receivedElse
  have hopened₅ : World.openedBy _ .responder = w₄.openedBy .responder := a₅.openedBy_peer
  generalize (w₄.step primitives (.decrypt .initiator reply.sealed (.ok 4))).1 = w₅ at *
  have hsending₄ : w₄.sendingChain .initiator = 1 := by
    rw [World.sendingChain, hsteps₄]
  rw [hsending₄] at hchain₅ hempty₅
  obtain ⟨w₆, r₆, m₆, -, hnext⟩ := r₅.seals .initiator _ 1 hchain₅ (by decide) hempty₅
    (by decide)
  obtain ⟨next, hnext, hnextNumber⟩ := hnext 0 (by decide)
  have hsteps₆ : w₆.steps .responder = 1 := by
    rw [m₆.steps]
    exact hother₅.trans ((congrFun m₄.steps _).trans hchain₃)
  have hreceived₆ : w₆.received .responder = 1002 := by
    rw [m₆.received]
    refine hreceived₅.trans ((m₄.received _).trans ?_)
    rw [a₃.received, hfarNumber]
  have hsent₆ : w₆.sentIn .initiator 1 = w₁.sentIn .initiator 1 := by
    rw [m₆.sentElse _ _ (.inr (by rw [hchain₅]; decide)), hsent₅,
      m₄.sentElse _ _ (.inl (by decide)), hsent₃, hsent₂]
  obtain ⟨r₇, a₇⟩ := r₆.opens_next .responder hsteps₆ hnext (by rw [hnextNumber]; decide)
    (by rw [hreceived₆]; show (w₆.sentIn .initiator 1).length ≤ _; rw [hsent₆, c.length]; decide)
    5 (by decide)
  obtain ⟨o₇, -, hopened₇⟩ := a₇.openedBy_self
  have hsent₇ := (a₇.sentIn .initiator 1).trans hsent₆
  have hreceived₇ := a₇.received
  generalize (w₆.step primitives (.decrypt .responder next.sealed (.ok 5))).1 = w₇ at *
  have hopened : w₇.openedBy .responder = o₇ :: o₃ :: o₂ :: w₁.openedBy .responder := by
    rw [hopened₇, m₆.opened, hopened₅, m₄.opened, hopened₃, hopened₂]
  have hboth : ∀ s, s = near ∨ s = far → s ∈ w₇.sealings ∧ s.sender = .initiator ∧
      s.sealed ∈ (w₇.openedBy .responder).map Opening.sealed := by
    rintro s hs
    have hmem : s ∈ w₇.sentIn .initiator 1 := by
      rw [hsent₇]
      rcases hs with rfl | rfl
      · exact hnear
      · exact hfar
    obtain ⟨hsealed, hsender, -⟩ := World.mem_sentIn.mp hmem
    refine ⟨hsealed, hsender, ?_⟩
    rw [hopened]
    rcases hs with rfl | rfl
    · simp [ho₂]
    · simp [ho₃]
  obtain ⟨hnearMem, hnearSender, -⟩ := hboth near (.inl rfl)
  obtain ⟨hfarMem, hfarSender, hfarOpened⟩ := hboth far (.inr rfl)
  refine ⟨w₀, w₇, near, far, c.start, r₇.reaches, r₇.distinct, hboth, .inr ⟨?_, ?_⟩, ?_⟩
  · -- no chain comes before the first
    have hprevious := (r₇.lockstep.genuine near hnearMem).previous
    rw [hnearSender, hnearChain, Nat.sub_self, r₇.lockstep.sentIn_zero] at hprevious
    rw [hprevious, List.length_nil, Nat.zero_sub]
    exact Nat.zero_le _
  · rw [← Sealing.number, hnumber]
    decide
  · rintro (hremote | ⟨-, hwithin⟩)
    · have hgone := r₇.lockstep.gone_of_opened (x := .responder) r₇.distinct hfarMem hfarSender
        hfarOpened
      have hbehind := r₇.lockstep.number_lt_of_passed (x := .responder) r₇.distinct hfarMem
        hfarSender hgone.passed hremote
      omega
    · rw [← Sealing.number, hfarNumber] at hwithin
      exact absurd hwithin (by decide)

end Symbolic

/-- When a replay is reported as `Authentication`.  In every state that a conversation reaches,
    a frame that its receiver has opened, delivered to it again with the RNG working, fails to
    authenticate if and only if no limit on skipped keys stands against it; and else it is
    reported as too far ahead. -/
theorem replay_fails_to_authenticate_iff (free : FreeKdf P) (fresh : FreshSharedKey P sharedKey)
    (correct : CorrectPrimitives P) (lengths : TagRemoved P) {signedPrekey ownRatchet : σ}
    {w₀ w : World α σ} (hstart : World.start P sharedKey signedPrekey ownRatchet = .ok w₀)
    (hreaches : World.Reaches P w₀ w) (hdistinct : (w.ratchets.map (publicKey P)).Nodup)
    {x : Party} {s : Sealing α} (hs : s ∈ w.sealings) (hsender : s.sender = x.peer)
    (hopened : s.sealed ∈ (w.openedBy x).map Opening.sealed) (own : σ)
    (hunforged : w.Unforged P (.decrypt x s.sealed (.ok own))) :
    ((w.step P (.decrypt x s.sealed (.ok own))).2
        = .opened (.error (.error (.crypto .authentication))) ↔ w.WithinLimits x s.header) ∧
      ((w.step P (.decrypt x s.sealed (.ok own))).2
        = .opened (.error (.error .tooFarAhead)) ↔ ¬ w.WithinLimits x s.header) := by
  have h := (World.Lockstep.start hstart).reaches free fresh hreaches
  rcases h.output_replay free fresh hdistinct hs hsender hopened correct lengths hunforged with
    ⟨houtput, hwithin⟩ | ⟨houtput, hbeyond⟩
  · simp [houtput, hwithin]
  · simp [houtput, hbeyond]

/-- The replay of an earlier frame of that chain fails to authenticate. -/
theorem replay_fails_to_authenticate_symbolic : ∃ (w : World Symbolic.Letter Nat)
    (s : Sealing Symbolic.Letter), s.sealed ∈ (w.openedBy .responder).map Opening.sealed ∧
    (w.step Symbolic.primitives (.decrypt .responder s.sealed (.ok 6))).2
      = .opened (.error (.error (.crypto .authentication))) := by
  obtain ⟨w₀, w, near, far, hstart, hreaches, hdistinct, hboth, hwithin, -⟩ :=
    Symbolic.exists_long_chain
  obtain ⟨hnear, hsender, hopened⟩ := hboth near (.inl rfl)
  have hunforged := Symbolic.unforged_of_genuine
    ((World.Lockstep.start hstart).reaches Symbolic.free Symbolic.fresh hreaches) hnear .responder
    (.ok 6)
  exact ⟨w, near, hopened, (replay_fails_to_authenticate_iff Symbolic.free Symbolic.fresh
    Symbolic.correct (fun _ _ _ _ _ => Symbolic.length_of_opens) hstart hreaches hdistinct
    (x := .responder) hnear hsender hopened 6 hunforged).1.mpr hwithin⟩

/-- The replay of a frame of a chain that the responder has left is reported as too far
    ahead. -/
theorem replay_too_far_ahead : ∃ (w₀ w : World Symbolic.Letter Nat) (s : Sealing Symbolic.Letter),
    World.start Symbolic.primitives Symbolic.sharedKey 1 2 = .ok w₀ ∧
    World.Reaches Symbolic.primitives w₀ w ∧
    (w.ratchets.map (publicKey Symbolic.primitives)).Nodup ∧
    s ∈ w.sealings ∧ s.sender = .initiator ∧
    s.sealed ∈ (w.openedBy .responder).map Opening.sealed ∧
    w.Unforged Symbolic.primitives (.decrypt .responder s.sealed (.ok 6)) ∧
    (w.step Symbolic.primitives (.decrypt .responder s.sealed (.ok 6))).2
      = .opened (.error (.error .tooFarAhead)) := by
  obtain ⟨w₀, w, near, far, hstart, hreaches, hdistinct, hboth, -, hbeyond⟩ :=
    Symbolic.exists_long_chain
  obtain ⟨hfar, hsender, hopened⟩ := hboth far (.inr rfl)
  have h := (World.Lockstep.start hstart).reaches Symbolic.free Symbolic.fresh hreaches
  have hunforged := Symbolic.unforged_of_genuine h hfar .responder (.ok 6)
  refine ⟨w₀, w, far, hstart, hreaches, hdistinct, hfar, hsender, hopened, hunforged, ?_⟩
  rcases h.output_replay Symbolic.free Symbolic.fresh (x := .responder) hdistinct hfar hsender
    hopened Symbolic.correct (fun _ _ _ _ _ => Symbolic.length_of_opens) hunforged with
    ⟨-, hwithin⟩ | ⟨houtput, -⟩
  · exact absurd hwithin hbeyond
  · exact houtput

end Quietwire
