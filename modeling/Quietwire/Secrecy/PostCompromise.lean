/-
  Quietwire.Secrecy.PostCompromise

  A session heals from the theft of its memory by one ratchet step with a fresh
  key: the step combines a private key of the peer that was not stolen with one
  drawn after the theft, and everything derived from their agreement is out of
  the thief's reach.
-/
import Quietwire.Secrecy.Knowledge
import Quietwire.Ratchet.Deliverable
import Quietwire.Symbolic.Rounds

namespace Quietwire

variable {α σ : Type} [Octet α] {P : Primitives α σ} {sharedKey : SecretKey α}
  {naming : Naming}

section Suffixes

variable {β : Type}

/-- More elements in front do not change the last `n` elements of a list that has them. -/
theorem rtake_of_suffix {l m : List β} {n : Nat} (hsuffix : l <:+ m) (hn : n ≤ l.length) :
    m.rtake n = l.rtake n := by
  obtain ⟨front, rfl⟩ := hsuffix
  induction front with
  | nil => rfl
  | cons b front ih =>
    rw [List.cons_append, rtake_cons_of_le, ih]
    rw [List.length_append]
    omega

theorem rtake_suffix (l : List β) (n : Nat) : l.rtake n <:+ l := List.drop_suffix _ _

theorem rtake_suffix_rtake (l : List β) {m n : Nat} (h : m ≤ n) : l.rtake m <:+ l.rtake n := by
  rw [List.rtake, List.rtake]
  exact List.drop_suffix_drop_left l (by omega)

end Suffixes

namespace World

/-! ## What is added to a conversation -/

omit [Octet α] in
/-- The sealings that have been added to the log since `v`. -/
def SealedSince (v w : World α σ) (s : Sealing α) : Prop :=
  ∃ added, w.log = added ++ v.log ∧ .sealed s ∈ added

omit [Octet α] in
/-- `w` comes after `v`: nothing that happened is forgotten, and frames are only added to
    the newest chain of their sender and later ones. -/
structure After (v w : World α σ) : Prop where
  steps : ∀ x, v.steps x ≤ w.steps x
  ratchets : v.ratchets <:+ w.ratchets
  log : ∃ added, w.log = added ++ v.log ∧
    ∀ s, .sealed s ∈ added → v.sendingChain s.sender ≤ s.chain

variable {v w : World α σ}

omit [Octet α] in
theorem sendingChain_mono (h : ∀ x, v.steps x ≤ w.steps x) (x : Party) :
    v.sendingChain x ≤ w.sendingChain x := by
  rw [sendingChain_eq, sendingChain_eq]
  exact Nat.add_le_add_right (h x) _

omit [Octet α] in
theorem After.chain_le (h : v.After w) {s : Sealing α} (hs : v.SealedSince w s) :
    v.sendingChain s.sender ≤ s.chain := by
  obtain ⟨added, hlog, hchains⟩ := h.log
  obtain ⟨added', hlog', hmem⟩ := hs
  obtain rfl := List.append_cancel_right (hlog.symm.trans hlog')
  exact hchains s hmem

omit [Octet α] in
theorem SealedSince.mem {s : Sealing α} (h : v.SealedSince w s) : s ∈ w.sealings := by
  obtain ⟨added, hlog, hmem⟩ := h
  rw [mem_sealings, hlog]
  exact List.mem_append_left _ hmem

theorem after_step [DecidableEq α] (h : v.After w) (event : Event α σ) :
    v.After (w.step P event).1 := by
  cases hw : w.step P event with
  | mk w' output =>
    have htransition := w.step_transition (P := P) event
    have hratchets := h.ratchets.trans (w.ratchets_suffix_step (P := P) event)
    rw [hw] at htransition hratchets
    obtain ⟨added, hlog, hchains⟩ := h.log
    -- only a sealing adds a frame, and it is of a chain that the sender has reached by now
    cases htransition with
    | refusedSealing => exact h
    | refusedOpening => exact h
    | @sealed sender nonce plaintext sealed s chain run =>
      refine ⟨h.steps, hratchets, .sealed _ :: added, congrArg _ hlog, ?_⟩
      intro t ht
      rcases List.mem_cons.mp ht with heq | hold
      · obtain rfl := Record.sealed.inj heq
        exact sendingChain_mono h.steps sender
      · exact hchains t hold
    | opened run stays =>
      refine ⟨h.steps, hratchets, .opened _ :: added, congrArg _ hlog, ?_⟩
      intro t ht
      rcases List.mem_cons.mp ht with heq | hold
      · cases heq
      · exact hchains t hold
    | @stepped receiver sealed generated plaintext key s run steps =>
      refine ⟨?_, hratchets, .opened _ :: added, congrArg _ hlog, ?_⟩
      · intro x
        by_cases hx : x = receiver
        · subst hx
          exact Nat.le_succ_of_le (h.steps x) |>.trans (Nat.le_of_eq
            (steps_recordStep_self w s ⟨x, some key, plaintext, sealed⟩).symm)
        · exact (h.steps x).trans (Nat.le_of_eq (steps_recordStep_of_ne w s
            ⟨receiver, some key, plaintext, sealed⟩ hx).symm)
      · intro t ht
        rcases List.mem_cons.mp ht with heq | hold
        · cases heq
        · exact hchains t hold

theorem after_reaches [DecidableEq α] (h : World.Reaches P v w) : v.After w := by
  refine h.invariant (fun _ event hv _ => after_step hv event) ?_
  exact ⟨fun _ => Nat.le_refl _, List.suffix_refl _, [], rfl, fun s hs => by cases hs⟩

/-! ## Everything after the healing step -/

/-- Everything that is derived in the era `healed` and after it, and the two private keys
    whose agreement opened it. -/
def healedGuard (healed : List σ) : Guard σ where
  root era := healed <:+ era
  chain era _ := healed <:+ era
  message era _ := healed <:+ era
  agreed own remote := ∃ rest, healed = own :: remote :: rest

omit [Octet α] in
theorem healedGuard_closed (healed : List σ) : (healedGuard healed).Closed where
  message _ _ h := h
  chain _ _ h := h
  start own remote era h := by
    -- the healing agreement itself, or a later era
    rcases List.suffix_cons_iff.mp h with heq | hlater
    · exact .inr ⟨era, heq⟩
    · exact .inl hlater
  root own remote era h := by
    rcases List.suffix_cons_iff.mp h with heq | hlater
    · exact .inr ⟨era, heq⟩
    · exact .inl hlater

variable {x : Party}

/-- How many ratchet keys there are once `x` has stepped after `w`. -/
def healedLen (w : World α σ) (x : Party) : Nat := x.eraLen (w.sendingChain x + 1)

omit [Octet α] in
theorem healedLen_eq (w : World α σ) (x : Party) :
    w.healedLen x = x.eraLen (w.sendingChain x) + 2 := by
  cases x <;> simp only [healedLen, Party.eraLen] <;> omega

/-- The memory of `x` has nothing from the era that its next step opens. -/
theorem Lockstep.healedGuard_spares (h : Lockstep P sharedKey naming w) (free : FreeKdf P)
    (fresh : FreshSharedKey P sharedKey) {ratchets : List σ} (hsuffix : w.ratchets <:+ ratchets)
    (hlen : w.healedLen x ≤ ratchets.length) (hnodup : ratchets.Nodup) :
    (healedGuard (ratchets.rtake (w.healedLen x))).Spares P sharedKey w x := by
  have hhealed : (ratchets.rtake (w.healedLen x)).length = x.eraLen (w.sendingChain x) + 2 := by
    rw [List.rtake, List.length_drop, ← w.healedLen_eq]
    omega
  have hnew : x.eraLen (w.sendingChain x) ≤ w.ratchets.length ∧
      w.ratchets.length < x.eraLen (w.sendingChain x) + 2 := by
    have hturn := h.turn
    have hdrawn := h.drawn
    cases x <;> simp only [Party.eraLen, sendingChain] <;> omega
  constructor
  case root =>
    intro era hera
    have hle := hera.length_le
    omega
  case sending =>
    intro era hera
    have hle := hera.length_le
    omega
  case receiving =>
    intro era hera
    have hle := hera.length_le
    omega
  case stored =>
    intro entry hentry era n hera hkeyOf
    have hle := hera.length_le
    obtain ⟨s, hstored, -⟩ := h.stored x entry hentry
    have hkey := (h.genuine s hstored.1).key
    rw [hstored.2.2.1] at hkey
    have hera := (free.messageKeyOf_inj fresh hkey.symm hkeyOf).1
    rw [length_eraOf] at hera
    omega
  case scalar =>
    rintro a b ⟨rest, hrest⟩
    -- the ratchet key that was stolen is older than both
    have hera : rest = (w.session x).ownRatchet :: w.eraOf x.peer (w.steps x) := by
      rw [← (h.synced x).era, eraOf, ← rtake_of_suffix hsuffix hnew.1]
      have htail : ratchets.rtake (x.eraLen (w.sendingChain x)) <:+ a :: b :: rest := by
        rw [← hrest]
        exact rtake_suffix_rtake _ (by rw [healedLen_eq]; omega)
      rw [hrest] at hhealed
      simp only [List.length_cons, Nat.add_right_cancel_iff] at hhealed
      have htailLen : (ratchets.rtake (x.eraLen (w.sendingChain x))).length = rest.length := by
        have hle := hsuffix.length_le
        rw [List.rtake, List.length_drop]
        omega
      have hrestSuffix : rest <:+ a :: b :: rest := ⟨[a, b], rfl⟩
      exact ((List.suffix_of_suffix_length_le hrestSuffix htail
        (Nat.le_of_eq htailLen.symm)).eq_of_length htailLen.symm)
    have hdistinct := hnodup.sublist (rtake_suffix ratchets (w.healedLen x)).sublist
    rw [hrest, hera] at hdistinct
    simp only [List.nodup_cons, List.mem_cons, not_or] at hdistinct
    exact ⟨fun heq => hdistinct.1.2.1 heq.symm, fun heq => hdistinct.2.1.1 heq.symm⟩

/-- A frame sealed in the healed era or later has a guarded key. -/
theorem Lockstep.guarded_of_healed (h : Lockstep P sharedKey naming w) {s : Sealing α}
    (hs : s ∈ w.sealings) {len : Nat} (hlen : len ≤ s.sender.eraLen s.chain) {key : Key α}
    (hkey : s.key = some key) :
    Guarded P sharedKey (healedGuard (w.ratchets.rtake len)) (.bytes key) := by
  have hkeyOf := (h.genuine s hs).key
  rw [hkey] at hkeyOf
  exact GuardedKey.message hkeyOf.symm (rtake_suffix_rtake _ hlen)

end World

/-- Post-compromise security.  The memory of `x` is stolen in the state `w`; by `w₁` it has
    taken a further ratchet step.  In any later state `w'` the thief, who has seen all frames,
    derives the key of no frame that `x` has sealed since `w₁`, nor of any that its peer has
    sealed since it has opened one of those. -/
theorem post_compromise_security [DecidableEq α] {signedPrekey ownRatchet : σ}
    {w₀ w w₁ w' : World α σ} (free : FreeKdf P) (agreement : FreeAgreement P)
    (fresh : FreshSecret P sharedKey)
    (hstart : World.start P sharedKey signedPrekey ownRatchet = .ok w₀)
    (hreaches : World.Reaches P w₀ w) (x : Party) (hheals : World.Reaches P w w₁)
    (hstepped : w.steps x < w₁.steps x) (hafter : World.Reaches P w₁ w')
    (hdistinct : (w'.ratchets.map (publicKey P)).Nodup) (own : Set (Term α σ))
    (hown : ∀ t ∈ own, Outside P sharedKey w'.ratchets t) :
    (∀ s, w₁.SealedSince w' s → s.sender = x → ∃ key, s.key = some key ∧
      ¬ Derives (Computes P) (knowledge (w.session x) w' own) (.bytes key)) ∧
    ∀ w₂, World.Reaches P w₁ w₂ → World.Reaches P w₂ w' →
      (∃ s, w₁.SealedSince w₂ s ∧ s.sender = x ∧
        s.sealed ∈ (w₂.openedBy x.peer).map Opening.sealed) →
      ∀ t, w₂.SealedSince w' t → t.sender = x.peer → ∃ key, t.key = some key ∧
        ¬ Derives (Computes P) (knowledge (w.session x) w' own) (.bytes key) := by
  have h : World.Lockstep P sharedKey .byKey w :=
    World.Lockstep.reaches free fresh.sharedKey hreaches (World.Lockstep.start hstart)
  have h₁ := World.Lockstep.reaches free fresh.sharedKey hheals h
  have h' := World.Lockstep.reaches free fresh.sharedKey hafter h₁
  have hlater := World.after_reaches (hheals.trans hafter)
  have hchains : w.sendingChain x + 1 ≤ w₁.sendingChain x := by
    rw [World.sendingChain_eq, World.sendingChain_eq]
    omega
  have hlen : w.healedLen x ≤ w'.ratchets.length :=
    Nat.le_trans (Party.eraLen_mono x hchains)
      (h'.eraLen_le (World.sendingChain_mono (World.after_reaches hafter).steps x))
  have hspares := h.healedGuard_spares (x := x) free fresh.sharedKey hlater.ratchets hlen
    (List.Nodup.of_map _ hdistinct)
  have hsecret : ∀ s ∈ w'.sealings, w.healedLen x ≤ s.sender.eraLen s.chain →
      ∃ key, s.key = some key ∧
        ¬ Derives (Computes P) (knowledge (w.session x) w' own) (.bytes key) := by
    intro s hs hhealed
    obtain ⟨key, hkey, -⟩ := (h'.genuine s hs).sealing
    refine ⟨key, hkey, fun hderives => ?_⟩
    refine h.not_derives free agreement fresh (World.healedGuard_closed _) hspares h' ?_ hown
      hderives (h'.guarded_of_healed hs hhealed hkey)
    rintro a b ⟨rest, hrest⟩
    have hsubset := (rtake_suffix w'.ratchets (w.healedLen x)).subset
    rw [hrest] at hsubset
    exact ⟨hsubset List.mem_cons_self, hsubset (List.mem_cons_of_mem _ List.mem_cons_self)⟩
  constructor
  · intro s hs hsender
    have hle := (World.after_reaches hafter).chain_le hs
    refine hsecret s hs.mem ?_
    rw [hsender] at hle ⊢
    exact Party.eraLen_mono x (hchains.trans hle)
  · rintro w₂ hreaches₂ hrest ⟨s, hs, hsender, hopened⟩ t ht htSender
    have h₂ := World.Lockstep.reaches free fresh.sharedKey hreaches₂ h₁
    have hratchets := (World.after_reaches hrest).ratchets
    -- the frame of `x` that its peer opened is in the healed era or later
    obtain ⟨o, ho, hsealed⟩ := List.mem_map.mp hopened
    obtain ⟨u, hu, huSender, -, huSealed, -, hpassed⟩ := h₂.opened x.peer o ho
    rw [Party.peer_peer] at huSender
    have distinct := h₂.distinct_byLabel (World.nodup_of_suffix hratchets hdistinct)
    obtain rfl := distinct.eq_of_sealed hu hs.mem (huSender.trans hsender.symm)
      (huSealed.trans hsealed)
    have hle := (World.after_reaches hreaches₂).chain_le hs
    have hseen : u.chain ≤ w₂.steps x.peer := hpassed.elim Nat.le_of_lt fun hp => hp.1.le
    have hnewest := w₂.eraLen_sendingChain x.peer
    have htChain := (World.after_reaches hrest).chain_le ht
    refine hsecret t ht.mem ?_
    rw [hsender] at hle
    rw [htSender] at htChain ⊢
    rw [Party.peer_peer] at hnewest
    have hfirst := Party.eraLen_mono x (hchains.trans (hle.trans hseen))
    have hlast := Party.eraLen_mono x.peer htChain
    rw [World.healedLen]
    omega

/-- The memory of the responder was stolen at the start.  It opens a frame, and then both
    parties seal frames whose keys the thief lacks. -/
theorem post_compromise_security_symbolic :
    ∃ (w v : World Symbolic.Letter Nat) (s t : Sealing Symbolic.Letter),
      s ∈ v.sealings ∧ s.sender = .responder ∧ t ∈ v.sealings ∧ t.sender = .initiator ∧
      (∃ key, s.key = some key ∧ ¬ Derives (Computes Symbolic.primitives)
        (knowledge (w.session .responder) v {.scalar 9}) (.bytes key)) ∧
      ∃ key, t.key = some key ∧ ¬ Derives (Computes Symbolic.primitives)
        (knowledge (w.session .responder) v {.scalar 9}) (.bytes key) := by
  obtain ⟨w, hstart, -, hratchets, hsteps, hlog⟩ :=
    Symbolic.exists_start Symbolic.sharedKey
  have h : World.Lockstep Symbolic.primitives Symbolic.sharedKey .byLabel w :=
    World.Lockstep.start hstart
  have hahead : w.ahead = .initiator := by
    rw [World.ahead, hsteps, if_pos rfl]
  -- three rounds: the responder steps, the initiator steps, the responder steps again
  obtain ⟨w₁, round₁⟩ : ∃ w₁, Symbolic.Round w 3 w₁ :=
    Symbolic.exists_round h (by rw [hratchets]; decide) (by rw [hlog]; exact Nat.zero_le _)
  obtain ⟨s₁, o₁, hlog₁, -, -, -⟩ := round₁.log
  have hratchets₁ : w₁.ratchets = [3, 2, 1] := by rw [round₁.ratchets, hratchets]
  have hahead₁ : w₁.ahead = .responder := by rw [round₁.ahead, hahead]; rfl
  obtain ⟨w₂, round₂⟩ : ∃ w₂, Symbolic.Round w₁ 4 w₂ :=
    Symbolic.exists_round round₁.lockstep (by rw [hratchets₁]; decide)
      (by simp [hlog₁, hlog])
  obtain ⟨s₂, o₂, hlog₂, hs₂, ho₂, hsealed₂⟩ := round₂.log
  have hratchets₂ : w₂.ratchets = [4, 3, 2, 1] := by rw [round₂.ratchets, hratchets₁]
  have hahead₂ : w₂.ahead = .initiator := by rw [round₂.ahead, hahead₁]; rfl
  obtain ⟨v, round₃⟩ : ∃ v, Symbolic.Round w₂ 5 v :=
    Symbolic.exists_round round₂.lockstep (by rw [hratchets₂]; decide)
      (by simp [hlog₂, hlog₁, hlog])
  obtain ⟨s₃, o₃, hlog₃, hs₃, -, -⟩ := round₃.log
  have hratchets₃ : v.ratchets = [5, 4, 3, 2, 1] := by rw [round₃.ratchets, hratchets₂]
  rw [hahead₁] at hs₂ ho₂
  rw [hahead₂] at hs₃
  have hstepped : w.steps .responder < w₁.steps .responder := by
    have hsucc := round₁.steps
    rw [hahead] at hsucc
    exact Nat.lt_of_succ_le (Nat.le_of_eq hsucc.symm)
  have hown : ∀ t ∈ ({.scalar 9} : Set (Term Symbolic.Letter Nat)),
      Outside Symbolic.primitives Symbolic.sharedKey v.ratchets t := by
    rintro t rfl
    show 9 ∉ v.ratchets
    rw [hratchets₃]
    decide
  obtain ⟨hown₂, hpeer₃⟩ := post_compromise_security Symbolic.free Symbolic.agreement
    Symbolic.freshSecret hstart .refl .responder round₁.reaches hstepped
    (round₂.reaches.trans round₃.reaches)
    (by rw [hratchets₃]; simp [Symbolic.publicKey_inj]) {.scalar 9} hown
  have hsince₂ : w₁.SealedSince w₂ s₂ :=
    ⟨[.opened o₂, .sealed s₂], hlog₂, List.mem_cons_of_mem _ List.mem_cons_self⟩
  have hsince : w₁.SealedSince v s₂ :=
    ⟨[.opened o₃, .sealed s₃, .opened o₂, .sealed s₂], by rw [hlog₃, hlog₂]; rfl, by simp⟩
  have hsince₃ : w₂.SealedSince v s₃ :=
    ⟨[.opened o₃, .sealed s₃], hlog₃, List.mem_cons_of_mem _ List.mem_cons_self⟩
  have hopened : s₂.sealed ∈ (w₂.openedBy .initiator).map Opening.sealed := by
    rw [hsealed₂]
    refine List.mem_map_of_mem (World.mem_openedBy.mpr ⟨?_, ho₂⟩)
    rw [hlog₂]
    exact List.mem_cons_self
  exact ⟨w, v, s₂, s₃, hsince.mem, hs₂, hsince₃.mem, hs₃, hown₂ s₂ hsince hs₂,
    hpeer₃ w₂ round₂.reaches round₃.reaches ⟨s₂, hsince₂, hs₂, hopened⟩ s₃ hsince₃ hs₃⟩

end Quietwire
