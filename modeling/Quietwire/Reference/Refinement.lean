/-
  Quietwire.Reference.Refinement

  Sessions refine the reference: on every schedule within the limits the two
  pairs emit the same frames and the same plaintexts.
-/
import Quietwire.Reference.Simulation
import Quietwire.Symbolic.Dialogue

namespace Quietwire

variable {α σ label : Type} [DecidableEq α] [Octet α] {P : Primitives α σ}
  {sharedKey : SecretKey α} {secret : label → σ} {labels : Party → List label} {w : World α σ}

open Reference

namespace Reference

variable {p : Pair α σ label}

omit [DecidableEq α] in
/-- The parties that are not concerned by a delivery still match. -/
theorem Matches.delivered {x y : Party} (h : World.Lockstep P sharedKey .byLabel w)
    (m : Matches P sharedKey labels w p) (hy : y ≠ x) (s' : Session α σ) {o : Opening α}
    (ho : o.receiver = x) :
    PartyMatches P sharedKey (labels y) (w.recordOpening s' o) y (p.party y) ∧
      PartyMatches P sharedKey (labels y) (w.recordStep s' o) y (p.party y) := by
  subst ho
  have hopening := World.session_recordOpening_of_ne w s' o hy
  have hstep := World.session_recordStep_of_ne w s' o hy
  have hopened := World.openedBy_recordOpening_of_ne w s' o hy.symm
  constructor
  · exact (m.party y).of_eq (by rw [hopening]) (by rw [hopening]) (by rw [hopening])
      (by rw [hopening]) rfl (fun _ _ => rfl) (by rw [hopened]; exact List.Subset.refl _)
  · exact (m.party y).of_eq (by rw [hstep]) (by rw [hstep]) (by rw [hstep]) (by rw [hstep])
      (World.steps_recordStep_of_ne w s' o hy)
      (fun chain hle => h.eraOf_recordStep s' (hle.trans (h.steps_le y).1))
      (by rw [World.openedBy_recordStep, hopened]; exact List.Subset.refl _)

/-- Both pairs open a frame that was not delivered before to the same bytes. -/
theorem Matches.receive (h : World.Lockstep P sharedKey .byLabel w) (hst : w.Stocked)
    (m : Matches P sharedKey labels w p) (correct : CorrectPrimitives P)
    (standard : StandardHkdf P) (hdistinct : (w.ratchets.map (publicKey P)).Nodup) {message : Nat}
    (hpermitted : w.Permitted labels (.receive message))
    (hdistinct' : ((w.act P secret labels (.receive message)).1.ratchets.map
      (publicKey P)).Nodup) :
    ∃ w' p' plaintext, w.act P secret labels (.receive message) = (w', .received plaintext) ∧
      p.act P secret (.receive message) = (p', .received plaintext) ∧
      Matches P sharedKey labels w' p' ∧ World.Lockstep P sharedKey .byLabel w' ∧ w'.Stocked := by
  obtain ⟨t, ht, hunopened, hbudget, hkeys⟩ := hpermitted
  generalize hx : t.sender.peer = x at hunopened hbudget hkeys
  have hmessage : p.messages[message]? = some (Message.ofSealing t) := by
    rw [m.messages, List.getElem?_map, ht, Option.map_some]
  -- the key that the session would draw, if there is one left
  obtain ⟨own, hown⟩ : ∃ own, ∀ next, (labels x)[w.steps x]? = some next → own = secret next := by
    cases (labels x)[w.steps x]? with
    | none => exact ⟨(w.session x).ownRatchet, fun _ heq => by cases heq⟩
    | some next => exact ⟨secret next, fun _ heq => by rw [Option.some.inj heq]⟩
  obtain ⟨key, s', run, hopened⟩ :=
    h.decrypts correct (hst _ _ hunopened) hdistinct hunopened hbudget own
  have hbudgeted : w.Budgeted P (.decrypt x t.sealed (.ok own)) :=
    .inl ⟨t, hunopened, rfl, hbudget, own, rfl⟩
  have h' := h.step (h.distinct_byLabel hdistinct) _ (hbudgeted.traced h correct hst hdistinct)
  have hst' := hst.call h correct hdistinct _ hbudgeted
  rw [World.step, World.decrypt_of_decrypted run] at h' hst'
  have hheader : Header.parse t.sealed.frame = t.header := rfl
  rw [hheader] at h' hst'
  cases hsteps : (w.session x).takesStep t.header with
  | false =>
    rw [hsteps] at h' hst' hopened
    have hseen : t.chain ≤ w.steps x := by
      cases hopened with
      | skipped store origin passed stored => exact passed.elim Nat.le_of_lt fun hp => hp.1.le
      | current origin chain ahead => exact Nat.le_of_eq chain
    obtain ⟨r', hrun, hmatches⟩ : ∃ r', (p.party x).decrypt P secret t.sealed.nonce.toList
        t.sealed.frame.toList = .ok t.plaintext.toList r' ∧ PartyMatches P sharedKey (labels x)
        (w.recordOpening s' ⟨x, some key, t.plaintext, t.sealed⟩) x r' :=
      (m.party x).opened h correct hdistinct hunopened run hsteps hseen h'
    have hact : w.act P secret labels (.receive message) =
        (w.recordOpening s' ⟨x, some key, t.plaintext, t.sealed⟩,
          .received t.plaintext.toList) := by
      have hdecrypt := World.decrypt_of_decrypted
        (run.of_stays P hsteps (nextRatchet secret (labels x) (w.steps x)))
      simp only [World.act, ht, hx, World.step, hdecrypt, hheader, hsteps]
      rfl
    have hpair : p.act P secret (.receive message) =
        ({ p with party := Function.update p.party x r' }, .received t.plaintext.toList) := by
      simp only [Pair.act, hmessage, Message.ofSealing, hx, hrun]
    refine ⟨_, _, _, hact, hpair, ⟨?_, m.messages⟩, h', hst'⟩
    intro y
    by_cases hy : y = x
    · subst hy
      simp only [Function.update_self]
      exact hmatches
    · simp only [Function.update_of_ne hy]
      exact (m.delivered h hy s' rfl).1
  | true =>
    rw [hsteps] at h' hst' hopened
    have hchain : t.chain = w.steps x + 1 := by
      cases hopened with
      | step origin chain next ahead sendingKeys => exact chain
    have hleft := hkeys (by omega)
    obtain ⟨next, hlabel⟩ : ∃ next, (labels x)[w.steps x]? = some next :=
      ⟨_, List.getElem?_eq_getElem hleft⟩
    have hact : w.act P secret labels (.receive message) =
        (w.recordStep s' ⟨x, some key, t.plaintext, t.sealed⟩,
          .received t.plaintext.toList) := by
      have hgenerated : nextRatchet secret (labels x) (w.steps x) = .ok own := by
        rw [nextRatchet, hlabel, hown next hlabel]
      have hdecrypt := World.decrypt_of_decrypted run
      simp only [World.act, ht, hx, hgenerated, World.step, hdecrypt, hheader, hsteps]
      rfl
    rw [hact] at hdistinct'
    obtain ⟨r', hrun, hmatches⟩ := (m.party x).stepped h correct hdistinct hunopened run standard
      hsteps hchain hlabel (hown next hlabel) h' hdistinct'
    have hpair : p.act P secret (.receive message) =
        ({ p with party := Function.update p.party x r' }, .received t.plaintext.toList) := by
      simp only [Pair.act, hmessage, Message.ofSealing, hx, hrun]
    refine ⟨_, _, _, hact, hpair, ⟨?_, m.messages⟩, h', hst'⟩
    intro y
    by_cases hy : y = x
    · subst hy
      simp only [Function.update_self]
      exact hmatches
    · simp only [Function.update_of_ne hy]
      exact (m.delivered h hy s' rfl).2

end Reference

/-! ## Runs -/

namespace World

theorem act_send_fst (labels : Party → List label) (w : World α σ) (sender : Party)
    (nonce : Nonce α) (plaintext : Plaintext α) :
    (w.act P secret labels (.send sender nonce plaintext)).1
      = (w.step P (.encrypt sender (.ok nonce) plaintext)).1 := by
  cases hstep : w.step P (.encrypt sender (.ok nonce) plaintext) with
  | mk w' output =>
    rw [act, hstep]
    rcases output with (_ | _) | _ <;> rfl

theorem act_receive_fst (labels : Party → List label) {w : World α σ} {message : Nat}
    {s : Sealing α} (hs : w.sealings.reverse[message]? = some s) :
    (w.act P secret labels (.receive message)).1
      = (w.step P (.decrypt s.sender.peer s.sealed
          (nextRatchet secret (labels s.sender.peer) (w.steps s.sender.peer)))).1 := by
  cases hstep : w.step P (.decrypt s.sender.peer s.sealed
      (nextRatchet secret (labels s.sender.peer) (w.steps s.sender.peer))) with
  | mk w' output =>
    rw [act, hs]
    simp only
    rw [hstep]
    rcases output with _ | (_ | _) <;> rfl

/-- An action leaves the world as it is, or where one call takes it. -/
theorem act_fst (labels : Party → List label) (w : World α σ) (action : Action α) :
    (w.act P secret labels action).1 = w ∨
      ∃ call, (w.act P secret labels action).1 = (w.step P call).1 := by
  cases action with
  | send sender nonce plaintext => exact .inr ⟨_, w.act_send_fst labels sender nonce plaintext⟩
  | receive message =>
    cases hs : w.sealings.reverse[message]? with
    | none =>
      rw [act, hs]
      exact .inl rfl
    | some s => exact .inr ⟨_, act_receive_fst labels hs⟩

theorem ratchets_suffix_act (w : World α σ) (action : Action α) :
    w.ratchets <:+ (w.act P secret labels action).1.ratchets := by
  -- whatever the outcome, the next world is the one that the call leaves
  have hcases : (w.act P secret labels action).1 = w ∨
      ∃ call, (w.act P secret labels action).1 = (w.step P call).1 := w.act_fst labels action
  rcases hcases with heq | ⟨call, heq⟩
  · rw [heq]
  · rw [heq]
    exact w.ratchets_suffix_step call

theorem ratchets_suffix_run (w : World α σ) (actions : List (Action α)) :
    w.ratchets <:+ (Machine.run (World.act P secret labels) w actions).1.ratchets := by
  induction actions generalizing w with
  | nil => exact List.suffix_refl _
  | cons action actions ih => exact (w.ratchets_suffix_act action).trans (ih _)

omit [DecidableEq α] in
/-- A responder that has received something has started a sending chain. -/
theorem Lockstep.started (h : Lockstep P sharedKey .byLabel w) {sender : Party}
    (hsender : sender = .responder → w.openedBy .responder ≠ []) :
    1 ≤ w.sendingChain sender := by
  cases sender with
  | initiator => exact Nat.succ_le_succ (Nat.zero_le _)
  | responder =>
    obtain ⟨o, ho⟩ := List.exists_mem_of_ne_nil _ (hsender rfl)
    obtain ⟨s, hs, -, -, -, -, hpassed⟩ := h.opened .responder o ho
    have hpos := (h.genuine s hs).chain_pos
    have hle : s.chain ≤ w.steps .responder := hpassed.elim Nat.le_of_lt fun hp => hp.1.le
    exact hpos.trans hle

end World

namespace Reference

variable {p : Pair α σ label}

/-- One permitted action has the same outcome in both pairs, and they match again. -/
theorem Matches.act (h : World.Lockstep P sharedKey .byLabel w) (hst : w.Stocked)
    (m : Matches P sharedKey labels w p) (correct : CorrectPrimitives P) (total : TotalSealing P)
    (standard : StandardHkdf P) {action : Action α} (hpermitted : w.Permitted labels action)
    (hdistinct : ((w.act P secret labels action).1.ratchets.map (publicKey P)).Nodup) :
    (p.act P secret action).2 = (w.act P secret labels action).2 ∧
      (w.act P secret labels action).2 ≠ .failed ∧
      Matches P sharedKey labels (w.act P secret labels action).1 (p.act P secret action).1 ∧
      World.Lockstep P sharedKey .byLabel (w.act P secret labels action).1 ∧
      (w.act P secret labels action).1.Stocked := by
  have hbefore := World.nodup_of_suffix (w.ratchets_suffix_act action) hdistinct
  cases action with
  | send sender nonce plaintext =>
    obtain ⟨hsender, hlimit⟩ := hpermitted
    -- the session can seal, and the reference party then seals the same frame
    obtain ⟨sealed, s, chain, run⟩ :=
      h.exists_sealed total (h.started hsender) hlimit nonce plaintext
    obtain ⟨p', hpair, hmatches⟩ : ∃ p', p.act P secret (.send sender nonce plaintext)
        = (p', .sent sealed.frame.toList) ∧ Matches P sharedKey labels (w.recordSealing s
          ⟨sender, w.sendingChain sender, some (Quietwire.kdfChain P chain.key).1, plaintext,
            sealed⟩) p' := m.send run
    have hact : w.act P secret labels (.send sender nonce plaintext) = (w.recordSealing s
        ⟨sender, w.sendingChain sender, some (Quietwire.kdfChain P chain.key).1, plaintext, sealed⟩,
        .sent sealed.frame.toList) := by
      rw [World.act, World.step, World.encrypt_of_sealed run]
    rw [hact, hpair]
    exact ⟨rfl, by simp, hmatches, h.recordSealing run, hst.sealing h run⟩
  | receive message =>
    obtain ⟨w', p', plaintext, hact, hpair, hmatches, h', hst'⟩ :=
      m.receive h hst correct standard hbefore hpermitted hdistinct
    rw [hact, hpair]
    exact ⟨rfl, by simp, hmatches, h', hst'⟩

/-- Matching pairs have the same outcomes all along a schedule. -/
theorem Matches.run (h : World.Lockstep P sharedKey .byLabel w) (hst : w.Stocked)
    (m : Matches P sharedKey labels w p) (correct : CorrectPrimitives P) (total : TotalSealing P)
    (standard : StandardHkdf P) {actions : List (Action α)}
    (hschedule : w.Schedule P secret labels actions)
    (hdistinct : ((Machine.run (World.act P secret labels) w actions).1.ratchets.map
      (publicKey P)).Nodup) :
    (Machine.run (Pair.act P secret) p actions).2
        = (Machine.run (World.act P secret labels) w actions).2 ∧
      .failed ∉ (Machine.run (World.act P secret labels) w actions).2 := by
  induction actions generalizing w p with
  | nil => exact ⟨rfl, List.not_mem_nil⟩
  | cons action actions ih =>
    obtain ⟨hpermitted, hrest⟩ := hschedule
    have hnext := World.nodup_of_suffix
      ((w.act P secret labels action).1.ratchets_suffix_run actions) hdistinct
    obtain ⟨houtcome, hfailed, m', h', hst'⟩ :=
      m.act h hst correct total standard hpermitted hnext
    obtain ⟨houtcomes, hnone⟩ := ih h' hst' m' hrest hdistinct
    constructor
    · show _ :: _ = _ :: _
      rw [houtcome, houtcomes]
    · show _ ∉ _ :: _
      rw [List.mem_cons, not_or]
      exact ⟨hfailed.symm, hnone⟩

/-- Two pairs that have just been started match. -/
theorem exists_matches (standard : StandardHkdf P) {signedPrekey ownRatchet : σ}
    (labels : Party → List label)
    (hstart : World.start P sharedKey signedPrekey ownRatchet = .ok w) :
    ∃ p, Pair.start P sharedKey signedPrekey ownRatchet labels = .ok p ∧
      Matches P sharedKey labels w p := by
  obtain ⟨hnonzero, rfl⟩ := World.start_eq_ok_iff.mp hstart
  -- both sides derive the initiator's first sending chain
  have hroot : Quietwire.kdfRoot P sharedKey ownRatchet (publicKey P signedPrekey)
      = .ok (expandRoot P sharedKey (P.x25519 ownRatchet (publicKey P signedPrekey))) :=
    (kdfRoot_eq_ok_iff P).mpr ⟨hnonzero, rfl, rfl⟩
  have hkeys := kdfRoot_toList standard hroot
  have hsending : RatchetParty.startSending P (x25519Public P signedPrekey)
      (RatchetParty.new sharedKey.toList ownRatchet (labels .initiator))
      = .ok () {
          rootKey := (rootKeyOf P sharedKey [ownRatchet, signedPrekey]).toList
          ownRatchet
          ratchetLabels := labels .initiator
          remoteRatchet := some (x25519Public P signedPrekey)
          sending := some ((expandRoot P sharedKey
            (P.x25519 ownRatchet (publicKey P signedPrekey))).2.toList, 0)
          previousSendingLen := 0
          receiving := fun _ => none
          used := [] } := by
    simp only [RatchetParty.startSending, RatchetParty.new, x25519Public, Transaction.get_bind,
      hkeys, orRaise_ok, Transaction.pure_bind_apply, Transaction.modify_bind]
    rfl
  refine ⟨_, by rw [Pair.start]; simp only [RatchetParty.new] at hsending ⊢; rw [hsending], ?_, rfl⟩
  intro x
  cases x with
  | initiator =>
    refine ⟨rfl, rfl, rfl, rfl, rfl, ?_, fun _ _ => rfl, List.forall_mem_nil _⟩
    -- no chain has been received yet, so nothing is asked of its keys
    intro chain ratchet start hpos hle
    exact absurd hpos (by show ¬ 1 ≤ chain; have : chain ≤ 0 := hle; omega)
  | responder =>
    refine ⟨rfl, rfl, rfl, rfl, rfl, ?_, fun _ _ => rfl, List.forall_mem_nil _⟩
    intro chain ratchet start hpos hle
    exact absurd hpos (by show ¬ 1 ≤ chain; have : chain ≤ 0 := hle; omega)

end Reference

/-! ## A dialogue as a schedule -/

namespace Symbolic

/-- The second frame of the initiator arrives before the first; it is answered; the second frame
    of the next chain arrives, and then the first frame of all. -/
def script : List (Action Letter) :=
  [.send .initiator nonce plaintext, .send .initiator nonce plaintext, .receive 1,
    .send .responder nonce plaintext, .receive 2, .send .initiator nonce plaintext,
    .send .initiator nonce plaintext, .receive 4, .receive 0]

/-- The ratchet keys that the two parties draw. -/
def drawnLabels : Party → List Nat
  | .initiator => [4]
  | .responder => [3, 5, 6]

variable {w₀ w v : World Letter Nat} {drawn : List Nat} {x : Party} {s : Sealing Letter} {own : Nat}

theorem Seals.act (h : Seals w x s v) :
    w.act primitives id drawnLabels (.send x nonce Symbolic.plaintext)
      = (v, .sent s.sealed.frame.toList) := by
  rw [World.act, h.call]

theorem Talk.permitted_send (t : Talk w₀ w drawn)
    (hresponder : x = .responder → w.openedBy .responder ≠ []) :
    w.Permitted drawnLabels (.send x nonce plaintext) :=
  ⟨hresponder, Nat.lt_of_le_of_lt ((List.length_filter_le _ _).trans t.few) (by decide)⟩

section Receiving

variable {message : Nat} (hs : w.sealings.reverse[message]? = some s) (hsender : s.sender.peer = x)
  (hown : (drawnLabels x)[w.steps x]? = some own)

include hs hsender hown

theorem Receives.act (h : Receives w x s own v) :
    w.act primitives id drawnLabels (.receive message) = (v, .received s.plaintext.toList) := by
  have hnext : nextRatchet id (drawnLabels x) (w.steps x) = .ok own := by
    rw [nextRatchet, hown]
    rfl
  rw [World.act, hs]
  simp only [hsender, hnext, h.call]

theorem Talk.permitted_receive (t : Talk w₀ w drawn) (hunopened : s ∈ w.unopened x) :
    w.Permitted drawnLabels (.receive message) := by
  subst hsender
  obtain ⟨hlt, -⟩ := List.getElem?_eq_some_iff.mp hown
  exact ⟨s, hs, hunopened, t.length_others_le, fun _ => hlt⟩

end Receiving

/-- Every action of the script is permitted, and what the sessions do with it is the dialogue. -/
theorem Dialogue.acted (d : Dialogue) (hlate : Receives d.w₈ .responder d.a₀ 6 w) :
    d.w₀.Schedule primitives id drawnLabels script ∧
    Machine.run (World.act primitives id drawnLabels) d.w₀ script
      = (w, [.sent d.a₀.sealed.frame.toList, .sent d.a₁.sealed.frame.toList,
        .received d.a₁.plaintext.toList, .sent d.b₀.sealed.frame.toList,
        .received d.b₀.plaintext.toList, .sent d.a₂.sealed.frame.toList,
        .sent d.a₃.sealed.frame.toList, .received d.a₃.plaintext.toList,
        .received d.a₀.plaintext.toList]) := by
  -- the frames that arrive, by their places
  have hone : d.w₂.sealings.reverse[1]? = some d.a₁ := by
    rw [d.sealings₂]
    rfl
  have htwo : d.w₄.sealings.reverse[2]? = some d.b₀ := by
    rw [d.sealings₄]
    rfl
  have hfour : d.w₇.sealings.reverse[4]? = some d.a₃ := by
    rw [d.sealings₇]
    rfl
  have hzero : d.w₈.sealings.reverse[0]? = some d.a₀ := by
    rw [d.sealings₈]
    rfl
  have hpeer : ∀ {s : Sealing Letter}, s.sender = .initiator → s.sender.peer = .responder := by
    intro s hsender
    rw [hsender]
    rfl
  have hanswer : d.b₀.sender.peer = .initiator := by
    rw [d.seals_b₀.sender]
    rfl
  -- the keys that are drawn for them
  have hthree : (drawnLabels .responder)[d.w₂.steps .responder]? = some 3 := by
    rw [d.steps₂]
    rfl
  have hfourth : (drawnLabels .initiator)[d.w₄.steps .initiator]? = some 4 := by
    rw [d.steps₄]
    rfl
  have hfive : (drawnLabels .responder)[d.w₇.steps .responder]? = some 5 := by
    rw [d.steps₇]
    rfl
  have hsix : (drawnLabels .responder)[d.w₈.steps .responder]? = some 6 := by
    rw [d.steps₈]
    rfl
  have hact₃ := d.receives_a₁.act hone (hpeer d.seals_a₁.sender) hthree
  have hact₅ := d.receives_b₀.act htwo hanswer hfourth
  have hact₈ := d.receives_a₃.act hfour (hpeer d.seals_a₃.sender) hfive
  have hact₉ := hlate.act hzero (hpeer d.seals_a₀.sender) hsix
  constructor
  · have hopened : d.w₃.openedBy .responder ≠ [] := by
      obtain ⟨o, -, heq⟩ := d.receives_a₁.openedBy_self
      rw [heq]
      exact List.cons_ne_nil _ _
    simp only [script, World.Schedule, d.seals_a₀.act, d.seals_a₁.act, hact₃, d.seals_b₀.act,
      hact₅, d.seals_a₂.act, d.seals_a₃.act, hact₈]
    exact ⟨d.talk₀.permitted_send Party.noConfusion, d.talk₁.permitted_send Party.noConfusion,
      d.talk₂.permitted_receive hone (hpeer d.seals_a₁.sender) hthree d.seals_a₁.unopened,
      d.talk₃.permitted_send fun _ => hopened,
      d.talk₄.permitted_receive htwo hanswer hfourth d.seals_b₀.unopened,
      d.talk₅.permitted_send Party.noConfusion, d.talk₆.permitted_send Party.noConfusion,
      d.talk₇.permitted_receive hfour (hpeer d.seals_a₃.sender) hfive d.seals_a₃.unopened,
      d.talk₈.permitted_receive hzero (hpeer d.seals_a₀.sender) hsix d.unopened₈_a₀, trivial⟩
  · simp only [script, Machine.run, d.seals_a₀.act, d.seals_a₁.act, hact₃, d.seals_b₀.act, hact₅,
      d.seals_a₂.act, d.seals_a₃.act, hact₈, hact₉]

end Symbolic

/-! ## Refinement -/

/-- Refinement of the reference: with the same shared key, ratchet keys and nonces, on every
    schedule within the limits, the pair of sessions and the pair of reference parties emit the
    same frame at every send and return the same plaintext at every receive. -/
theorem sessions_refine_reference (correct : CorrectPrimitives P) (total : TotalSealing P)
    (standard : StandardHkdf P) {signedPrekey ownRatchet : σ}
    (hstart : World.start P sharedKey signedPrekey ownRatchet = .ok w)
    {actions : List (Action α)} (hschedule : w.Schedule P secret labels actions)
    (hdistinct : ((Machine.run (World.act P secret labels) w actions).1.ratchets.map
      (publicKey P)).Nodup) :
    ∃ p, Pair.start P sharedKey signedPrekey ownRatchet labels = .ok p ∧
      (Machine.run (Pair.act P secret) p actions).2
        = (Machine.run (World.act P secret labels) w actions).2 ∧
      .failed ∉ (Machine.run (World.act P secret labels) w actions).2 := by
  obtain ⟨p, hp, m⟩ := exists_matches standard labels hstart
  have h : World.Lockstep P sharedKey .byLabel w := World.Lockstep.start hstart
  have hst : w.Stocked := (World.stocked_reaches correct hstart .refl
    (World.nodup_of_suffix (w.ratchets_suffix_run actions) hdistinct)).2
  exact ⟨p, hp, m.run h hst correct total standard hschedule hdistinct⟩

/-- A dialogue, acted out by both pairs: the second frame of the initiator arrives before the
    first, it is answered, the second frame of the next chain arrives, and then the first frame
    of all. -/
theorem sessions_refine_reference_symbolic : ∃ (d : Symbolic.Dialogue)
    (p : Pair Symbolic.Letter Nat Nat),
    Pair.start Symbolic.primitives Symbolic.sharedKey 1 2 Symbolic.drawnLabels = .ok p ∧
    (Machine.run (Pair.act Symbolic.primitives id) p Symbolic.script).2
      = [.sent d.a₀.sealed.frame.toList, .sent d.a₁.sealed.frame.toList,
        .received d.a₁.plaintext.toList, .sent d.b₀.sealed.frame.toList,
        .received d.b₀.plaintext.toList, .sent d.a₂.sealed.frame.toList,
        .sent d.a₃.sealed.frame.toList, .received d.a₃.plaintext.toList,
        .received d.a₀.plaintext.toList] := by
  obtain ⟨d⟩ := Symbolic.exists_dialogue
  obtain ⟨w, hlate, tlate⟩ := d.talk₈.receives (x := .responder) d.unopened₈_a₀ 6 (by decide)
  obtain ⟨hschedule, hrun⟩ := d.acted hlate
  obtain ⟨p, hp, houtcomes, -⟩ := sessions_refine_reference Symbolic.correct Symbolic.total
    (fun _ _ _ _ _ => rfl) d.start hschedule (by rw [hrun]; exact tlate.distinct)
  exact ⟨d, p, hp, by rw [houtcomes, hrun]⟩

end Quietwire
