/-
  Quietwire.Ratchet.Continuation

  Whether a conversation can still continue after any losses: it can as long as
  neither party is deaf, and two frames are enough; once a party is deaf it will
  never again open a frame.
-/
import Quietwire.Symbolic.Schedules

namespace Quietwire

variable {α σ : Type} [DecidableEq α] [Octet α] {P : Primitives α σ} {sharedKey : SecretKey α}

namespace World

variable {w : World α σ} {x : Party}

omit [DecidableEq α] [Octet α] in
/-- Since `w`, each session has opened a frame that the other has sealed since `w`. -/
def Resumed (w w' : World α σ) : Prop :=
  ∃ added, w'.log = added ++ w.log ∧ ∀ x : Party, ∃ s o, .sealed s ∈ added ∧
    .opened o ∈ added ∧ s.sender = x.peer ∧ o.receiver = x ∧ s.sealed = o.sealed

/-! ## Deaf parties stay deaf -/

theorem ratchets_suffix_turn (w : World α σ) (t : Turn α σ) :
    w.ratchets <:+ (w.turn P t).ratchets := by
  rcases w.turn_cases (P := P) t with heq | ⟨sealed, s, chain, -, heq⟩
  · rw [heq]
  · rw [heq]
    exact ratchets_suffix_step (P := P) (w.recordSealing s _) _

theorem ratchets_suffix_turns (w : World α σ) (list : List (Turn α σ)) :
    w.ratchets <:+ (w.turns P list).ratchets := by
  induction list generalizing w with
  | nil => exact List.suffix_refl _
  | cons t list ih => exact (w.ratchets_suffix_turn t).trans (ih (w.turn P t))

theorem Lockstep.after_turn (h : Lockstep P sharedKey .byLabel w) (correct : CorrectPrimitives P)
    (t : Turn α σ) (hdistinct : ((w.turn P t).ratchets.map (publicKey P)).Nodup) :
    Lockstep P sharedKey .byLabel (w.turn P t) :=
  h.honest_reaches correct (h.turn_reaches (nodup_of_suffix (w.ratchets_suffix_turn t) hdistinct) t)
    hdistinct

/-- A deaf party opens nothing, however the conversation goes on. -/
theorem Lockstep.deaf_turns (h : Lockstep P sharedKey .byLabel w)
    (correct : CorrectPrimitives P) (hdeaf : w.Deaf x) (list : List (Turn α σ))
    (hdistinct : ((w.turns P list).ratchets.map (publicKey P)).Nodup) :
    (w.turns P list).openedBy x = w.openedBy x := by
  induction list generalizing w with
  | nil => rfl
  | cons t list ih =>
    have hafter := nodup_of_suffix ((w.turn P t).ratchets_suffix_turns list) hdistinct
    have hbefore := nodup_of_suffix (w.ratchets_suffix_turn t) hafter
    obtain ⟨hstays, hopened⟩ := h.deaf_turn hbefore hdeaf t
    exact (ih (h.after_turn correct t hafter) hstays hdistinct).trans hopened

omit [DecidableEq α] [Octet α] in
/-- A conversation in which a party opens nothing is not resumed. -/
theorem not_resumed {w' : World α σ} (hopened : w'.openedBy x = w.openedBy x) :
    ¬ w.Resumed w' := by
  rintro ⟨added, hlog, hboth⟩
  obtain ⟨-, o, -, ho, -, hreceiver, -⟩ := hboth x
  have hsplit : w'.openedBy x
      = ((added.filterMap Record.opening?).filter fun o => o.receiver = x) ++ w.openedBy x := by
    rw [openedBy, hlog, List.filterMap_append, List.filter_append, openedBy]
  rw [hopened, List.self_eq_append_left] at hsplit
  have hmem : o ∈ (added.filterMap Record.opening?).filter fun o => o.receiver = x := by
    rw [List.mem_filter, List.mem_filterMap]
    exact ⟨⟨_, ho, rfl⟩, by simpa using hreceiver⟩
  rw [hsplit] at hmem
  cases hmem

/-! ## Two frames resume a conversation -/

/-- Two frames resume a conversation in which neither party is deaf. -/
theorem Lockstep.resumes (h : Lockstep P sharedKey .byLabel w) (correct : CorrectPrimitives P)
    (total : TotalSealing P) (hdistinct : (w.ratchets.map (publicKey P)).Nodup)
    (hhears : ∀ x, ¬ w.Deaf x) {t u : Turn α σ} (ht : t.sender = w.ahead)
    (hu : u.sender = w.ahead.peer) (hfresh : publicKey P t.own ∉ w.ratchets.map (publicKey P)) :
    w.Resumed (w.turns P [t, u]) := by
  obtain ⟨hsteps, hnext⟩ := h.steps_ahead
  obtain ⟨s, sealing, s', o, hturn, hsealing, hreceiving, ho, hown⟩ :=
    h.turn_ahead correct total hdistinct t ht (hhears _)
  have hratchets : (w.turn P t).ratchets = t.own :: w.ratchets := by
    rw [hturn, ratchets_recordStep, hown, ratchets_recordSealing]
  have hdistinct' : ((w.turn P t).ratchets.map (publicKey P)).Nodup := by
    rw [hratchets, List.map_cons]
    exact List.nodup_cons.mpr ⟨hfresh, hdistinct⟩
  have h' := h.after_turn correct t hdistinct'
  -- the peer has started a chain, and the party ahead is where it was
  have hpeer : (w.turn P t).sendingChain w.ahead.peer = w.steps w.ahead + 1 := by
    rw [hturn, ← ho, sendingChain_recordStep_self, sendingChain_recordSealing, ho, ← hsteps]
  have hstay : (w.turn P t).steps w.ahead = w.steps w.ahead := by
    rw [hturn, steps_recordStep_of_ne _ _ _ (by rw [ho]; exact Party.ne_peer _),
      steps_recordSealing]
  have hreceived : (w.turn P t).received w.ahead = w.received w.ahead := by
    rw [hturn, received, session_recordStep_of_ne _ _ _ (by rw [ho]; exact Party.ne_peer _),
      ← received]
    exact received_recordSealing (by rw [hsealing]; exact hreceiving) _
  have hsent : ∀ chain, (w.turn P t).sentIn w.ahead.peer chain = w.sentIn w.ahead.peer chain := by
    intro chain
    rw [hturn, sentIn_recordStep]
    exact sentIn_recordSealing_of_ne _ _ _ (.inl (by rw [hsealing]; exact Party.ne_peer _))
  have hnil : w.sentIn w.ahead.peer (w.steps w.ahead + 1) = [] :=
    h.sentIn_eq_nil (by omega)
  have hhears' : ¬ (w.turn P t).Deaf w.ahead := by
    have hbefore := hhears w.ahead
    rw [Deaf, hnil, List.length_nil] at hbefore
    rw [Deaf, hreceived, hstay, hsent, hsent, hnil, List.length_nil]
    exact hbefore
  obtain ⟨s₁, o₁, hlog₁, hs₁, ho₁, hsealed₁⟩ :=
    h.turn_log correct total hdistinct t (by rw [ht]; omega)
      (by
        have hpeerHears := hhears w.ahead.peer
        rw [Deaf, Party.peer_peer, ← hnext, not_or] at hpeerHears
        rw [ht]
        omega) (by rw [ht]; exact hhears _)
  obtain ⟨s₂, o₂, hlog₂, hs₂, ho₂, hsealed₂⟩ :=
    h'.turn_log correct total hdistinct' u (by rw [hu, hpeer]; omega)
      (by rw [hu, hpeer, hsent, hnil]; exact Nat.zero_lt_succ _)
      (by rw [hu, Party.peer_peer]; exact hhears')
  refine ⟨[.opened o₂, .sealed s₂, .opened o₁, .sealed s₁], ?_, fun x => ?_⟩
  · show ((w.turn P t).turn P u).log = _
    rw [hlog₂, hlog₁]
    rfl
  · rcases Party.eq_or_eq_peer w.ahead x with rfl | rfl
    · exact ⟨s₂, o₂, by simp, by simp, by rw [hs₂, hu], by rw [ho₂, hu, Party.peer_peer], hsealed₂⟩
    · exact ⟨s₁, o₁, by simp, by simp, by rw [hs₁, ht, Party.peer_peer], by rw [ho₁, ht], hsealed₁⟩

end World

/-! ## The continuation of a conversation -/

/-- Whether a conversation can continue after any losses: when neither party is deaf, two
    frames resume it, of the party ahead and then of its peer; when one is, that party opens
    no frame of any continuation, so that no sequence of frames resumes it. -/
theorem continues_unless_deaf (correct : CorrectPrimitives P) (total : TotalSealing P)
    {signedPrekey ownRatchet : σ} {w₀ w : World α σ}
    (hstart : World.start P sharedKey signedPrekey ownRatchet = .ok w₀)
    (hreaches : Machine.Reaches (World.step P) (World.Honest P) w₀ w)
    (hdistinct : (w.ratchets.map (publicKey P)).Nodup) :
    ((∀ x, ¬ w.Deaf x) → ∀ t u : Turn α σ, t.sender = w.ahead → u.sender = w.ahead.peer →
      publicKey P t.own ∉ w.ratchets.map (publicKey P) → w.Resumed (w.turns P [t, u])) ∧
    (∀ x, w.Deaf x → ∀ list : List (Turn α σ),
      ((w.turns P list).ratchets.map (publicKey P)).Nodup →
      (w.turns P list).openedBy x = w.openedBy x ∧ ¬ w.Resumed (w.turns P list)) := by
  have h₀ : World.Lockstep P sharedKey .byLabel w₀ := World.Lockstep.start hstart
  have h := h₀.honest_reaches correct hreaches hdistinct
  refine ⟨fun hhears t u ht hu hfresh => h.resumes correct total hdistinct hhears ht hu hfresh,
    fun x hdeaf list hlist => ?_⟩
  have hopened := h.deaf_turns correct hdeaf list hlist
  exact ⟨hopened, World.not_resumed hopened⟩

/-- A conversation in which the first 1 000 frames of the initiator were all lost continues;
    when one more is lost, the responder opens nothing again. -/
theorem continues_after_losses :
    (∃ w₀ w, World.start Symbolic.primitives Symbolic.sharedKey 1 2 = .ok w₀ ∧
      w = w₀.sealMany Symbolic.primitives .initiator Symbolic.nonce Symbolic.plaintext 1000 ∧
      (w.sentIn .initiator 1).length = 1000 ∧ w.openedBy .responder = [] ∧
      w.Resumed (w.turns Symbolic.primitives
        [⟨.initiator, Symbolic.nonce, Symbolic.plaintext, 3⟩,
          ⟨.responder, Symbolic.nonce, Symbolic.plaintext, 4⟩])) ∧
    ∃ w₀ w, World.start Symbolic.primitives Symbolic.sharedKey 1 2 = .ok w₀ ∧
      w = w₀.sealMany Symbolic.primitives .initiator Symbolic.nonce Symbolic.plaintext 1001 ∧
      ∀ list, ((w.turns Symbolic.primitives list).ratchets.map
        (publicKey Symbolic.primitives)).Nodup →
        (w.turns Symbolic.primitives list).openedBy .responder = [] := by
  constructor
  · obtain ⟨w₀, w, c⟩ := Symbolic.exists_firstChain 1000 (by decide)
    have hahead : w.ahead = .initiator := by
      rw [World.ahead, c.steps, c.steps, if_pos rfl]
    refine ⟨w₀, w, c.start, c.sealed, c.length, c.opened,
      (continues_unless_deaf Symbolic.correct Symbolic.total c.start c.honest
        c.run.distinct).1 (fun x => ?_) _ _ hahead.symm (by rw [hahead]; rfl) ?_⟩
    · exact c.not_deaf (Nat.le_refl 1000) x
    · rw [c.run.ratchets]
      simp [Symbolic.publicKey_inj]
  · obtain ⟨w₀, w, c⟩ := Symbolic.exists_firstChain 1001 (by decide)
    refine ⟨w₀, w, c.start, c.sealed, fun list hlist => ?_⟩
    obtain ⟨hopened, -⟩ := (continues_unless_deaf Symbolic.correct Symbolic.total c.start c.honest
      c.run.distinct).2 .responder (c.deaf (by decide)) list hlist
    rw [hopened, c.opened]

/-- After 1 001 frames of the initiator were lost, the two sessions never again both open a
    frame of each other. -/
theorem lost_frames_block : ∃ w₀ w,
    World.start Symbolic.primitives Symbolic.sharedKey 1 2 = .ok w₀ ∧
    w = w₀.sealMany Symbolic.primitives .initiator Symbolic.nonce Symbolic.plaintext 1001 ∧
    Machine.Reaches (World.step Symbolic.primitives) (World.Honest Symbolic.primitives) w₀ w ∧
    ∀ list, ((w.turns Symbolic.primitives list).ratchets.map
      (publicKey Symbolic.primitives)).Nodup → ¬ w.Resumed (w.turns Symbolic.primitives list) := by
  obtain ⟨w₀, w, c⟩ := Symbolic.exists_firstChain 1001 (by decide)
  refine ⟨w₀, w, c.start, c.sealed, c.honest, fun list hlist => ?_⟩
  exact World.not_resumed
    (c.run.lockstep.deaf_turns Symbolic.correct (c.deaf (by decide)) list hlist)

end Quietwire
