/-
  Quietwire.Ratchet.Schedule

  The pieces that long schedules are made of: a party seals a number of frames in
  a row, and a frame in reach of its receiver is given to it.
-/
import Quietwire.Ratchet.Exchange

namespace Quietwire

variable {α σ : Type} [DecidableEq α] [Octet α] {P : Primitives α σ} {sharedKey : SecretKey α}

namespace World

variable {w : World α σ} {x : Party}

/-! ## Sealing in a row -/

variable (P) in
/-- A party seals `n` frames in a row. -/
def sealMany (w : World α σ) (x : Party) (nonce : Nonce α) (plaintext : Plaintext α) (n : Nat) :
    World α σ :=
  (fun v : World α σ => (v.step P (.encrypt x (.ok nonce) plaintext)).1)^[n] w

theorem sealMany_succ (w : World α σ) (nonce : Nonce α) (plaintext : Plaintext α) (n : Nat) :
    w.sealMany P x nonce plaintext (n + 1)
      = ((w.sealMany P x nonce plaintext n).step P (.encrypt x (.ok nonce) plaintext)).1 :=
  Function.iterate_succ_apply' _ _ _

/-- A party may seal frames wherever it may seal one. -/
theorem sealMany_reaches {allowed : World α σ → Event α σ → Prop} (w : World α σ)
    (nonce : Nonce α) (plaintext : Plaintext α)
    (hallowed : ∀ v, allowed v (.encrypt x (.ok nonce) plaintext)) (n : Nat) :
    Machine.Reaches (World.step P) allowed w (w.sealMany P x nonce plaintext n) := by
  induction n with
  | zero => exact .refl
  | succ n ih =>
    rw [sealMany_succ]
    exact ih.tail (hallowed _)

omit [DecidableEq α] [Octet α] in
/-- In `v`, the party `x` has sealed `n` more frames in its newest chain than in `w`, and
    nothing else has happened. -/
structure SealedMore (w : World α σ) (x : Party) (n : Nat) (v : World α σ) : Prop where
  ratchets : v.ratchets = w.ratchets
  steps : v.steps = w.steps
  sent : (v.sentIn x (w.sendingChain x)).length = (w.sentIn x (w.sendingChain x)).length + n
  sentElse : ∀ y c, x ≠ y ∨ w.sendingChain x ≠ c → v.sentIn y c = w.sentIn y c
  opened : ∀ y, v.openedBy y = w.openedBy y
  received : ∀ y, v.received y = w.received y
  log : v.log.length = w.log.length + n

/-- What a party seals below the chain limit adds to its chain and changes nothing else. -/
theorem Lockstep.sealMany (h : Lockstep P sharedKey .byLabel w) (total : TotalSealing P)
    (hstarted : 1 ≤ w.sendingChain x) (nonce : Nonce α) (plaintext : Plaintext α) {n : Nat}
    (hn : (w.sentIn x (w.sendingChain x)).length + n ≤ 2000) :
    Lockstep P sharedKey .byLabel (w.sealMany P x nonce plaintext n) ∧
      w.SealedMore x n (w.sealMany P x nonce plaintext n) := by
  induction n with
  | zero => exact ⟨h, rfl, rfl, rfl, fun _ _ _ => rfl, fun _ => rfl, fun _ => rfl, rfl⟩
  | succ n ih =>
    -- sealing does not move the chain, so all `n` frames are in one
    obtain ⟨h', more⟩ := ih (by omega)
    have hchain : (w.sealMany P x nonce plaintext n).sendingChain x = w.sendingChain x := by
      rw [sendingChain_eq, sendingChain_eq, more.steps]
    obtain ⟨sealed, s, chain, run⟩ := h'.exists_sealed (x := x) total
      (by rw [hchain]; exact hstarted) (by rw [hchain, more.sent]; omega) nonce plaintext
    have hsucc : w.sealMany P x nonce plaintext (n + 1)
        = (w.sealMany P x nonce plaintext n).recordSealing s
          (nextSealing P (w.sealMany P x nonce plaintext n) x chain plaintext sealed) := by
      rw [sealMany_succ, World.step, encrypt_of_sealed run]
      rfl
    rw [hsucc]
    refine ⟨h'.recordNextSealing run, more.ratchets, more.steps, ?_, ?_, more.opened, ?_, ?_⟩
    · have hself := sentIn_recordSealing_self (w.sealMany P x nonce plaintext n) s
        (nextSealing P (w.sealMany P x nonce plaintext n) x chain plaintext sealed)
      rw [nextSealing, hchain] at hself
      rw [nextSealing, hchain, hself, List.length_cons, more.sent]
      omega
    · intro y c hne
      rw [sentIn_recordSealing_of_ne _ _ _ (by rw [nextSealing, hchain]; exact hne)]
      exact more.sentElse y c hne
    · intro y
      rw [received_recordSealing (by rw [run.after]; rfl)]
      exact more.received y
    · show (w.sealMany P x nonce plaintext n).log.length + 1 = _
      rw [more.log]
      omega

/-! ## A frame arrives -/

omit [DecidableEq α] in
/-- Chains are counted from 1. -/
theorem Lockstep.sentIn_zero (h : Lockstep P sharedKey .byLabel w) (y : Party) :
    w.sentIn y 0 = [] := by
  refine List.eq_nil_iff_forall_not_mem.mpr fun s hs => ?_
  obtain ⟨hmem, -, hchain⟩ := mem_sentIn.mp hs
  have hpos := (h.genuine s hmem).chain_pos
  omega

/-- A frame of the current receiving chain takes no ratchet step. -/
theorem Lockstep.takesStep_current (h : Lockstep P sharedKey .byLabel w) {s : Sealing α}
    (hs : s ∈ w.sentIn x.peer (w.steps x)) : (w.session x).takesStep s.header = false := by
  obtain ⟨hmem, hsender, hchain⟩ := mem_sentIn.mp hs
  apply Session.takesStep_of_remote
  rw [(h.synced x).remote, ← (h.genuine s hmem).ratchet, hsender, hchain]

omit [DecidableEq α] in
/-- In `v`, the party `x` has opened the frame `s`, with the ratchet key `own` drawn for the
    ratchet step if there was one, and nothing else has happened since `w`. -/
structure Arrival (w : World α σ) (x : Party) (s : Sealing α) (own : σ) (v : World α σ) :
    Prop where
  sealings : v.sealings = w.sealings
  steps : v.steps x = s.chain
  stepsElse : v.steps x.peer = w.steps x.peer
  received : v.received x = s.number + 1
  receivedElse : v.received x.peer = w.received x.peer
  ratchets : v.ratchets = if s.chain = w.steps x then w.ratchets else own :: w.ratchets
  log : ∃ o, o.receiver = x ∧ o.sealed = s.sealed ∧ v.log = .opened o :: w.log

omit [DecidableEq α] in
theorem Arrival.openedBy_self {s : Sealing α} {own : σ} {v : World α σ}
    (h : w.Arrival x s own v) : ∃ o, o.sealed = s.sealed ∧ v.openedBy x = o :: w.openedBy x := by
  obtain ⟨o, rfl, hsealed, hlog⟩ := h.log
  exact ⟨o, hsealed, by rw [openedBy_of_opened hlog, if_pos rfl]⟩

/-- A frame of the peer's next chain does. -/
theorem Lockstep.takesStep_next (h : Lockstep P sharedKey .byLabel w)
    (hdistinct : (w.ratchets.map (publicKey P)).Nodup) {s : Sealing α}
    (hs : s ∈ w.sentIn x.peer (w.steps x + 1)) : (w.session x).takesStep s.header = true := by
  obtain ⟨hmem, hsender, hchain⟩ := mem_sentIn.mp hs
  have hnot : ¬ w.Passed x s := World.not_passed_of_lt (by omega)
  apply Session.takesStep_of_ne (h.position_eq_none hdistinct hmem hsender hnot)
  have hle := (h.genuine s hmem).chain_le
  rw [hsender, hchain] at hle
  rw [(h.synced x).remote, ← (h.genuine s hmem).ratchet, hsender, hchain]
  intro heq
  have hchains := h.chain_of_ratchet hdistinct hle (h.steps_le x).1 (Nat.succ_pos _) heq.symm
  omega

namespace Arrival

variable {s : Sealing α} {own : σ} {v : World α σ}

/-- A frame that arrived is not outstanding any more, and the others still are. -/
theorem mem_unopened (a : w.Arrival x s own v) {u : Sealing α} :
    u ∈ v.unopened x ↔ u ∈ w.unopened x ∧ u.sealed ≠ s.sealed := by
  obtain ⟨o, rfl, hsealed, hlog⟩ := a.log
  rw [mem_unopened_of_opened hlog, hsealed]
  exact and_congr_right fun _ => forall_prop_of_true rfl

omit [DecidableEq α] in
theorem sentIn (a : w.Arrival x s own v) (y : Party) (chain : Nat) :
    v.sentIn y chain = w.sentIn y chain := by
  rw [World.sentIn, a.sealings, World.sentIn]

omit [DecidableEq α] in
/-- A frame of the next chain makes its receiver start a chain, in which nothing is sealed. -/
theorem sending_next (a : w.Arrival x s own v) (h : Lockstep P sharedKey .byLabel w)
    (hchain : s.chain = w.steps x + 1) : v.sendingChain x = w.sendingChain x + 1 ∧
      v.sentIn x (w.sendingChain x + 1) = [] := by
  refine ⟨?_, ?_⟩
  · rw [sendingChain_eq, sendingChain_eq, a.steps, hchain]
    omega
  · rw [a.sentIn]
    exact h.sentIn_eq_nil (Nat.lt_succ_self _)

end Arrival

omit [DecidableEq α] in
theorem Arrival.openedBy_peer {s : Sealing α} {own : σ} {v : World α σ}
    (h : w.Arrival x s own v) : v.openedBy x.peer = w.openedBy x.peer := by
  obtain ⟨o, rfl, -, hlog⟩ := h.log
  rw [openedBy_of_opened hlog, if_neg (Party.peer_ne _)]

/-- What `decrypt` returns for a frame in reach. -/
theorem Lockstep.output_inReach (h : Lockstep P sharedKey .byLabel w)
    (hdistinct : (w.ratchets.map (publicKey P)).Nodup) (correct : CorrectPrimitives P)
    {s : Sealing α} (hs : s ∈ w.sealings) (hsender : s.sender = x.peer)
    (hnot : ¬ w.Passed x s) (hreach : w.InReach x s) (own : σ) :
    (w.step P (.decrypt x s.sealed (.ok own))).2 = .opened (.ok s.plaintext) := by
  obtain ⟨key, s', run, -⟩ := h.decrypts_inReach hdistinct hs hsender hnot correct
    (h.distinct_byLabel hdistinct) hreach own
  rw [World.step, decrypt_of_decrypted run]

/-- A frame in reach arrives. -/
theorem Lockstep.arrives (h : Lockstep P sharedKey .byLabel w)
    (hdistinct : (w.ratchets.map (publicKey P)).Nodup) (correct : CorrectPrimitives P)
    {s : Sealing α} (hs : s ∈ w.sealings) (hsender : s.sender = x.peer)
    (hnot : ¬ w.Passed x s) (hreach : w.InReach x s) (own : σ) :
    Lockstep P sharedKey .byLabel (w.step P (.decrypt x s.sealed (.ok own))).1 ∧
      w.Arrival x s own (w.step P (.decrypt x s.sealed (.ok own))).1 := by
  have distinct := h.distinct_byLabel hdistinct
  obtain ⟨key, s', run, hopened⟩ :=
    h.decrypts_inReach hdistinct hs hsender hnot correct distinct hreach own
  rw [World.step, decrypt_of_decrypted run]
  generalize hsteps : (w.session x).takesStep (Header.parse s.sealed.frame) = stepped
  rw [Sealing.header, hsteps] at hopened
  cases hopened with
  -- in reach and not passed, so not from the store
  | skipped store origin passed stored => exact absurd passed hnot
  | @current key start origin hchain ahead =>
    have a := h.advance_current distinct origin hchain ahead
    rw [if_neg Bool.false_ne_true]
    refine ⟨h.recordOpening a, rfl, hchain.symm, rfl, a.received_self, ?_, ?_, _, rfl, rfl, rfl⟩
    · exact Advance.received_other (Party.peer_ne x)
    · rw [if_pos hchain]
      rfl
  | @step key receiving sending own' root origin hchain hnext ahead sendingKeys =>
    have d := h.stride_step distinct origin hchain hnext ahead rfl sendingKeys
    have hown := run.ownRatchet_eq P hsteps
    rw [if_pos rfl]
    refine ⟨h.recordStep d, rfl, ?_, ?_, d.received_self, ?_, ?_, _, rfl, rfl, rfl⟩
    · exact (steps_recordStep_self w _ _).trans hchain.symm
    · exact steps_recordStep_of_ne w _ _ (Party.peer_ne x)
    · show World.received (w.recordStep _ _) x.peer = w.received x.peer
      rw [World.received, session_recordStep_of_ne _ _ _ (Party.peer_ne x), ← World.received]
    · rw [if_neg (by omega)]
      show _ :: w.ratchets = _
      rw [hown]

end World

end Quietwire
