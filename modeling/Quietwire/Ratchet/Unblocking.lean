/-
  Quietwire.Ratchet.Unblocking

  When a session that cannot seal can seal again.  The documentation of
  `Error::SendingBlocked` has it that any frame from the peer is enough; the code
  starts a sending chain at a ratchet step and nowhere else.
-/
import Quietwire.Ratchet.Refusal
import Quietwire.Symbolic.Schedules

namespace Quietwire

variable {α σ : Type} [DecidableEq α] [Octet α] {P : Primitives α σ}

namespace Session

variable {s s' : Session α σ} {sealed : SealedFrame α} {generated : Except CryptoError σ}
  {plaintext : Plaintext α} {key : Key α}

/-- A blocked session stays blocked unless the frame it opens makes it take a ratchet step. -/
theorem Decrypted.blocked_iff (run : Decrypted P s sealed generated plaintext key s')
    (hblocked : s.Blocked) :
    s'.Blocked ↔ s.takesStep (Header.parse sealed.frame) = false := by
  cases hsteps : s.takesStep (Header.parse sealed.frame) with
  | false =>
    -- the sending chain is the one that was full
    refine iff_of_true ?_ rfl
    rw [run.eq_of_stays P hsteps]
    exact hblocked
  | true =>
    obtain ⟨⟨start, hsending⟩, -⟩ := run.sending_of_steps P hsteps
    refine iff_of_false (fun hstill => ?_) (Bool.noConfusion)
    have hfull : 2000 ≤ (0 : UInt32).toNat := hstill _ hsending
    exact absurd hfull (by decide)

end Session

namespace World

variable {w : World α σ} {x : Party} {nonce : Nonce α} {plaintext : Plaintext α}

/-- When `encrypt` reports a blocked session, the RNG working. -/
theorem encrypt_refused_iff (w : World α σ) (x : Party) (nonce : Nonce α)
    (plaintext : Plaintext α) : (w.step P (.encrypt x (.ok nonce) plaintext)).2
      = .sealed (.error (.error .sendingBlocked)) ↔ (w.session x).Blocked := by
  rw [← Session.encrypt_eq_blocked_iff (P := P) nonce plaintext]
  cases hrun : Session.encrypt P (.ok nonce) plaintext (w.session x) with
  | ok frame s' =>
    rw [World.step, World.encrypt, hrun]
    simp
  | error failure s' =>
    rw [World.step, encrypt_of_error P hrun]
    simp

/-- When it returns a frame. -/
theorem encrypt_succeeds_iff (total : TotalSealing P) (w : World α σ) (x : Party)
    (nonce : Nonce α) (plaintext : Plaintext α) :
    (∃ frame, (w.step P (.encrypt x (.ok nonce) plaintext)).2 = .sealed (.ok frame)) ↔
      ¬ (w.session x).Blocked := by
  cases hrun : Session.encrypt P (.ok nonce) plaintext (w.session x) with
  | ok frame s' =>
    have hresult : (w.step P (.encrypt x (.ok nonce) plaintext)).2 = .sealed (.ok frame) := by
      rw [World.step, World.encrypt, hrun]
    refine iff_of_true ⟨frame, hresult⟩ fun hblocked => ?_
    rw [← w.encrypt_refused_iff (P := P) x nonce plaintext, hresult] at hblocked
    cases hblocked
  | error failure s' =>
    refine iff_of_false ?_ ?_
    · rw [World.step, encrypt_of_error P hrun]
      rintro ⟨frame, hframe⟩
      cases hframe
    · intro hblocked
      exact (Session.encryptWith_of_not_blocked hblocked hrun).2 total

/-- A blocked session of a conversation stays blocked unless it takes a ratchet step. -/
theorem blocked_after_decrypt (hblocked : (w.session x).Blocked) {sealed : SealedFrame α}
    {generated : Except CryptoError σ} {opened : Plaintext α}
    (hopened : (w.step P (.decrypt x sealed generated)).2 = .opened (.ok opened)) :
    ((w.step P (.decrypt x sealed generated)).1.session x).Blocked ↔
      (w.session x).takesStep (Header.parse sealed.frame) = false := by
  cases hw : w.step P (.decrypt x sealed generated) with
  | mk w' output =>
    have htransition := w.step_transition (P := P) (.decrypt x sealed generated)
    rw [hw] at htransition hopened
    cases htransition with
    | refusedOpening => cases hopened
    | @opened _ _ _ _ _ s' run stays =>
      show (Function.update w.session x s' x).Blocked ↔ _
      rw [Function.update_self]
      exact run.blocked_iff hblocked
    | @stepped _ _ _ _ _ s' run steps =>
      show (Function.update w.session x s' x).Blocked ↔ _
      rw [Function.update_self]
      exact run.blocked_iff hblocked

end World

/-! ## Two frames that a blocked session opens -/

namespace Symbolic

/-- A responder is blocked until it has opened a frame. -/
theorem exists_first_frame : ∃ (w : World Letter Nat) (s : Sealing Letter),
    (w.session .responder).Blocked ∧
    (w.step primitives (.decrypt .responder s.sealed (.ok 3))).2 = .opened (.ok s.plaintext) ∧
    (w.session .responder).takesStep s.header = true := by
  obtain ⟨w₀, w, c⟩ := exists_firstChain 1 (by decide)
  obtain ⟨s, hs, hnumber⟩ := c.exists_frame (i := 0) (by decide)
  obtain ⟨hmem, hsender, -⟩ := World.mem_sentIn.mp hs
  have hreach := c.inReach hs (by rw [hnumber]; decide)
  refine ⟨w, s, ?_, c.run.lockstep.output_inReach (x := .responder) c.run.distinct
    correct hmem hsender (c.not_passed hmem _) hreach 3,
    c.run.lockstep.takesStep_next c.run.distinct (by rw [c.steps]; exact hs)⟩
  -- it has no sending chain yet
  intro chain hsending
  rw [(c.run.lockstep.synced .responder).sending, startKeyOf_of_length_le] at hsending
  · cases hsending
  · rw [World.length_eraOf, World.sendingChain, c.steps]
    exact Nat.min_le_left _ _

/-- The initiator has opened the first of two frames of the responder and sealed 2 000 frames
    since; `s` is the second, which is late. -/
structure FullChain (w₀ w : World Letter Nat) (s : Sealing Letter) : Prop where
  start : World.start primitives sharedKey 1 2 = .ok w₀
  run : Run w₀ w [4, 3, 2, 1]
  steps : ∀ x, w.steps x = 1
  first : (w.sentIn .initiator 1).length = 1
  full : (w.sentIn .initiator 2).length = 2000
  replies : (w.sentIn .responder 1).length = 2
  received : w.received .initiator = 1
  late : s ∈ w.sentIn .responder 1
  number : s.number = 1

theorem exists_fullChain : ∃ w₀ w s, FullChain w₀ w s := by
  -- the initiator seals a frame, and the responder opens it and seals two
  obtain ⟨w₀, w₁, c⟩ := exists_firstChain 1 (by decide)
  obtain ⟨f, hf, hnumber⟩ := c.exists_frame (i := 0) (by decide)
  have hchain := (World.mem_sentIn.mp hf).2.2
  obtain ⟨r₂, a₂, hchain₂, hempty₂⟩ := c.opens hf (by rw [hnumber]; decide)
  generalize (w₁.step primitives (.decrypt .responder f.sealed (.ok 3))).1 = w₂ at *
  obtain ⟨w₃, r₃, m₃, hlen₃, hreplies⟩ := r₂.seals .responder _ 2 hchain₂ (by decide) hempty₂
    (by decide)
  obtain ⟨s₀, hs₀, hnumber₀⟩ := hreplies 0 (by decide)
  obtain ⟨s₁, hs₁, hnumber₁⟩ := hreplies 1 (by decide)
  -- the initiator opens the first of them and seals 2 000 frames
  have hother : w₂.steps .initiator = w₁.steps .initiator := a₂.stepsElse
  have hsteps₃ : w₃.steps .initiator = 0 := by
    rw [m₃.steps, hother, c.steps]
  obtain ⟨r₄, a₄⟩ := r₃.opens_next .initiator hsteps₃ hs₀ (by rw [hnumber₀]; decide)
    (by rw [r₃.lockstep.sentIn_zero]; exact Nat.zero_le _) 4 (by decide)
  have hchain₀ := (World.mem_sentIn.mp hs₀).2.2
  obtain ⟨hchain₄, hempty₄⟩ := a₄.sending_next r₃.lockstep (by rw [hchain₀, hsteps₃])
  generalize (w₃.step primitives (.decrypt .initiator s₀.sealed (.ok 4))).1 = w₄ at *
  have hsending₃ : w₃.sendingChain .initiator = 1 := by
    rw [World.sendingChain, hsteps₃]
  rw [hsending₃] at hchain₄ hempty₄
  obtain ⟨w₅, r₅, m₅, hlen₅, -⟩ := r₄.seals .initiator _ 2000 hchain₄ (by decide) hempty₄
    (by decide)
  have hreplied : w₅.sentIn .responder 1 = w₃.sentIn .responder 1 := by
    rw [m₅.sentElse .responder 1 (.inl (by decide)), a₄.sentIn]
  refine ⟨w₀, w₅, s₁, c.start, r₅, fun x => ?_, ?_, hlen₅, ?_, ?_, ?_, hnumber₁⟩
  · rw [m₅.steps]
    cases x with
    | initiator => exact a₄.steps.trans hchain₀
    | responder =>
      refine a₄.stepsElse.trans ?_
      rw [m₃.steps]
      exact a₂.steps.trans hchain
  · rw [m₅.sentElse .initiator 1 (.inr (by rw [hchain₄]; decide)), a₄.sentIn,
      m₃.sentElse .initiator 1 (.inl (by decide)), a₂.sentIn, c.length]
  · rw [hreplied, hlen₃]
  · rw [m₅.received, a₄.received, hnumber₀]
  · rw [hreplied]
    exact hs₁

/-- A party with 2 000 frames in its newest chain is blocked. -/
theorem blocked_of_full {w₀ w : World Letter Nat} {drawn : List Nat} {x : Party} {chain : Nat}
    (r : Run w₀ w drawn) (hchain : w.sendingChain x = chain) (hstarted : 1 ≤ chain)
    (hfull : (w.sentIn x chain).length = 2000) : (w.session x).Blocked := by
  subst hchain
  intro chain hsending
  obtain ⟨chain', hsending', hnext⟩ := r.lockstep.exists_sending hstarted
  rw [Option.some.inj (hsending.symm.trans hsending'), hnext, hfull]

/-- The initiator is blocked, and opens the late frame, which is of the chain it reads. -/
theorem exists_late_frame : ∃ (w₀ w : World Letter Nat) (s : Sealing Letter),
    World.start primitives sharedKey 1 2 = .ok w₀ ∧ World.Reaches primitives w₀ w ∧
    (w.ratchets.map (publicKey primitives)).Nodup ∧
    s ∈ w.sealings ∧ s.sender = .responder ∧ (w.session .initiator).Blocked ∧
    (w.step primitives (.decrypt .initiator s.sealed (.ok 5))).2 = .opened (.ok s.plaintext) ∧
    (w.session .initiator).takesStep s.header = false := by
  obtain ⟨w₀, w, s, c⟩ := exists_fullChain
  obtain ⟨hmem, hsender, hchain⟩ := World.mem_sentIn.mp c.late
  have hcurrent := c.steps .initiator
  have hreceived := c.received
  have hnumber := c.number
  have hnot : ¬ w.Passed .initiator s := World.not_passed_of_le (by omega) (by omega)
  refine ⟨w₀, w, s, c.start, c.run.reaches, c.run.distinct, hmem, hsender, ?_, ?_, ?_⟩
  · exact blocked_of_full c.run (by rw [World.sendingChain, hcurrent]) (by decide) c.full
  · exact c.run.lockstep.output_inReach (x := .initiator) c.run.distinct correct hmem hsender
      hnot (.inl ⟨by omega, by omega⟩) 5
  · exact c.run.lockstep.takesStep_current (x := .initiator) (by rw [hcurrent]; exact c.late)

/-- The responder has opened one of the 2 000 frames since, and answers it in a new chain; the
    initiator is blocked, and opens the answer. -/
theorem exists_answer : ∃ (w : World Letter Nat) (s : Sealing Letter),
    (w.sentIn .initiator (w.sendingChain .initiator)).length = 2000 ∧
    (w.session .initiator).Blocked ∧
    (w.step primitives (.decrypt .initiator s.sealed (.ok 6))).2 = .opened (.ok s.plaintext) ∧
    (w.session .initiator).takesStep s.header = true := by
  obtain ⟨w₀, w₅, late, c⟩ := exists_fullChain
  have hsome : 0 < (w₅.sentIn .initiator 2).length := by
    rw [c.full]
    decide
  obtain ⟨f, hf, hnumber⟩ := c.run.lockstep.exists_number hsome
  obtain ⟨r₆, a₆⟩ := c.run.opens_next .responder (c.steps _) hf (by rw [hnumber]; decide)
    (by show (w₅.sentIn .initiator 1).length ≤ _; rw [c.first]; omega) 5 (by decide)
  have hchain := (World.mem_sentIn.mp hf).2.2
  obtain ⟨hchain₆, hempty₆⟩ := a₆.sending_next c.run.lockstep (by rw [c.steps, hchain])
  generalize (w₅.step primitives (.decrypt .responder f.sealed (.ok 5))).1 = w₆ at *
  have hsending : w₅.sendingChain .responder = 1 := c.steps _
  rw [hsending] at hchain₆ hempty₆
  obtain ⟨w₇, r₇, m₇, -, hanswers⟩ := r₆.seals .responder _ 1 hchain₆ (by decide) hempty₆
    (by decide)
  obtain ⟨s, hs, hfirst⟩ := hanswers 0 (by decide)
  obtain ⟨hmem, hsender, hnew⟩ := World.mem_sentIn.mp hs
  -- for the initiator nothing has changed
  have hsteps : w₇.steps .initiator = 1 := by
    rw [m₇.steps]
    exact a₆.stepsElse.trans (c.steps _)
  have hsent : w₇.sendingChain .initiator = 2 := by
    rw [World.sendingChain, hsteps]
  have hfull : (w₇.sentIn .initiator 2).length = 2000 := by
    rw [m₇.sentElse .initiator 2 (.inl (by decide)), a₆.sentIn, c.full]
  have hreplies : (w₇.sentIn .responder 1).length = 2 := by
    rw [m₇.sentElse .responder 1 (.inr (by rw [hchain₆]; decide)), a₆.sentIn, c.replies]
  refine ⟨w₇, s, by rw [hsent, hfull], blocked_of_full r₇ hsent (by decide) hfull, ?_, ?_⟩
  · refine r₇.lockstep.output_inReach (x := .initiator) r₇.distinct correct hmem hsender
      (World.not_passed_of_lt (by omega)) (.inr ⟨by omega, by omega, ?_⟩) 6
    rw [hsteps]
    show (w₇.sentIn .responder 1).length - _ ≤ 1000
    omega
  · exact r₇.lockstep.takesStep_next (x := .initiator) r₇.distinct (by rw [hsteps]; exact hs)

end Symbolic

/-- Sending resumes on a ratchet step.  In any state in which the `encrypt` of a session
    reports that it is blocked, and for any frame that its `decrypt` opens there, its next
    `encrypt` returns a frame if and only if opening that one took a ratchet step. -/
theorem sending_resumes_iff_step (total : TotalSealing P) {w : World α σ} {x : Party}
    {nonce : Nonce α} {plaintext : Plaintext α}
    (hblocked : (w.step P (.encrypt x (.ok nonce) plaintext)).2
      = .sealed (.error (.error .sendingBlocked)))
    {sealed : SealedFrame α} {generated : Except CryptoError σ} {opened : Plaintext α}
    (hopened : (w.step P (.decrypt x sealed generated)).2 = .opened (.ok opened))
    (nonce' : Nonce α) (plaintext' : Plaintext α) :
    (∃ frame, ((w.step P (.decrypt x sealed generated)).1.step P
        (.encrypt x (.ok nonce') plaintext')).2 = .sealed (.ok frame)) ↔
      (w.session x).takesStep (Header.parse sealed.frame) = true := by
  rw [World.encrypt_refused_iff] at hblocked
  rw [World.encrypt_succeeds_iff total, World.blocked_after_decrypt hblocked hopened,
    Bool.not_eq_false]

/-- A responder can seal once it has opened the first frame of the initiator; and an initiator
    whose chain is full once it has opened a frame of a new chain of the responder, but not once
    it has opened a late one of the old chain. -/
theorem sending_resumes_iff_step_symbolic :
    (∃ (w : World Symbolic.Letter Nat) (s : Sealing Symbolic.Letter),
      (w.step Symbolic.primitives (.encrypt .responder (.ok Symbolic.nonce) Symbolic.plaintext)).2
        = .sealed (.error (.error .sendingBlocked)) ∧
      ∃ frame, ((w.step Symbolic.primitives (.decrypt .responder s.sealed (.ok 3))).1.step
          Symbolic.primitives (.encrypt .responder (.ok Symbolic.nonce) Symbolic.plaintext)).2
        = .sealed (.ok frame)) ∧
    (∃ (w : World Symbolic.Letter Nat) (s : Sealing Symbolic.Letter),
      (w.sentIn .initiator (w.sendingChain .initiator)).length = 2000 ∧
      (w.step Symbolic.primitives (.encrypt .initiator (.ok Symbolic.nonce) Symbolic.plaintext)).2
        = .sealed (.error (.error .sendingBlocked)) ∧
      ∃ frame, ((w.step Symbolic.primitives (.decrypt .initiator s.sealed (.ok 6))).1.step
          Symbolic.primitives (.encrypt .initiator (.ok Symbolic.nonce) Symbolic.plaintext)).2
        = .sealed (.ok frame)) ∧
    ∃ (w : World Symbolic.Letter Nat) (s : Sealing Symbolic.Letter),
      (w.step Symbolic.primitives (.decrypt .initiator s.sealed (.ok 5))).2
        = .opened (.ok s.plaintext) ∧
      ¬ ∃ frame, ((w.step Symbolic.primitives (.decrypt .initiator s.sealed (.ok 5))).1.step
          Symbolic.primitives (.encrypt .initiator (.ok Symbolic.nonce) Symbolic.plaintext)).2
        = .sealed (.ok frame) := by
  have hrefused : ∀ {w : World Symbolic.Letter Nat} {x : Party}, (w.session x).Blocked →
      (w.step Symbolic.primitives (.encrypt x (.ok Symbolic.nonce) Symbolic.plaintext)).2
        = .sealed (.error (.error .sendingBlocked)) :=
    fun {w x} => (w.encrypt_refused_iff (P := Symbolic.primitives) x Symbolic.nonce
      Symbolic.plaintext).mpr
  refine ⟨?_, ?_, ?_⟩
  · obtain ⟨w, s, hblocked, hopened, hsteps⟩ := Symbolic.exists_first_frame
    exact ⟨w, s, hrefused hblocked, (sending_resumes_iff_step Symbolic.total (hrefused hblocked)
      hopened _ _).mpr hsteps⟩
  · obtain ⟨w, s, hfull, hblocked, hopened, hsteps⟩ := Symbolic.exists_answer
    exact ⟨w, s, hfull, hrefused hblocked, (sending_resumes_iff_step Symbolic.total
      (hrefused hblocked) hopened _ _).mpr hsteps⟩
  · obtain ⟨w₀, w, s, -, -, -, -, -, hblocked, hopened, hstays⟩ := Symbolic.exists_late_frame
    refine ⟨w, s, hopened, ?_⟩
    rw [sending_resumes_iff_step Symbolic.total (hrefused hblocked) hopened]
    exact ne_true_of_eq_false hstays

/-- A blocked initiator opens a frame that the responder has sealed for it, and is still
    blocked. -/
theorem late_frame_leaves_blocked : ∃ (w₀ w : World Symbolic.Letter Nat)
    (s : Sealing Symbolic.Letter),
    World.start Symbolic.primitives Symbolic.sharedKey 1 2 = .ok w₀ ∧
    World.Reaches Symbolic.primitives w₀ w ∧
    (w.ratchets.map (publicKey Symbolic.primitives)).Nodup ∧
    s ∈ w.sealings ∧ s.sender = .responder ∧
    (w.step Symbolic.primitives (.encrypt .initiator (.ok Symbolic.nonce) Symbolic.plaintext)).2
      = .sealed (.error (.error .sendingBlocked)) ∧
    (w.step Symbolic.primitives (.decrypt .initiator s.sealed (.ok 5))).2
      = .opened (.ok s.plaintext) ∧
    ((w.step Symbolic.primitives (.decrypt .initiator s.sealed (.ok 5))).1.step Symbolic.primitives
        (.encrypt .initiator (.ok Symbolic.nonce) Symbolic.plaintext)).2
      = .sealed (.error (.error .sendingBlocked)) := by
  obtain ⟨w₀, w, s, hstart, hreaches, hdistinct, hs, hsender, hblocked, hopened, hstays⟩ :=
    Symbolic.exists_late_frame
  refine ⟨w₀, w, s, hstart, hreaches, hdistinct, hs, hsender, ?_, hopened, ?_⟩
  · rw [World.encrypt_refused_iff]
    exact hblocked
  · rw [World.encrypt_refused_iff, World.blocked_after_decrypt hblocked hopened]
    exact hstays

end Quietwire
