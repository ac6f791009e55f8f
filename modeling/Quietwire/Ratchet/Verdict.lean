/-
  Quietwire.Ratchet.Verdict

  What `decrypt` answers to a frame that the peer sealed, in every state of a
  conversation: it opens if its key is stored, or if it was not passed and is in
  reach; a frame that is gone fails to authenticate, or counts as too far ahead; and
  a frame that is out of reach is too far ahead.
-/
import Quietwire.Ratchet.Replay
import Quietwire.Ratchet.StoreOrder

namespace Quietwire

variable {α σ : Type} [DecidableEq α] [Octet α] {P : Primitives α σ} {sharedKey : SecretKey α}

/-! ## The verdict -/

/-- The answer to a frame that the peer sealed. -/
inductive Verdict where
  | opens
  | authentication
  | tooFarAhead
  deriving DecidableEq, Repr

/-- What `decrypt` returns. -/
def Verdict.output (s : Sealing α) : Verdict → Output α
  | .opens => .opened (.ok s.plaintext)
  | .authentication => .opened (.error (.error (.crypto .authentication)))
  | .tooFarAhead => .opened (.error (.error .tooFarAhead))

namespace World

variable {w : World α σ} {x : Party} {s : Sealing α} {own : σ}

omit [DecidableEq α] in
instance (w : World α σ) (x : Party) (s : Sealing α) : Decidable (w.Passed x s) :=
  inferInstanceAs (Decidable (_ ∨ _))

instance (w : World α σ) (x : Party) (s : Sealing α) : Decidable (w.InReach x s) :=
  inferInstanceAs (Decidable (_ ∨ _))

instance (w : World α σ) (x : Party) (header : Header α) :
    Decidable (w.WithinLimits x header) :=
  inferInstanceAs (Decidable (_ ∨ _))

/-- By the store and by the positions of the two parties. -/
def verdict (w : World α σ) (x : Party) (s : Sealing α) : Verdict :=
  if ((w.session x).skipped.position s.header).isSome then .opens
  else if w.Passed x s then
    if w.WithinLimits x s.header then .authentication else .tooFarAhead
  else
    if w.InReach x s then .opens else .tooFarAhead

end World

/-! ## Frames that are out of reach -/

omit [DecidableEq α] in
/-- A number too far past the position. -/
theorem Cursor.messageKey_of_far (cursor : Cursor α) {number : UInt32}
    (hahead : cursor.next.toNat ≤ number.toNat)
    (hfar : 1000 < number.toNat - cursor.next.toNat) :
    cursor.messageKey P number = .error .tooFarAhead := by
  cases h : cursor.messageKey P number with
  | ok result =>
    obtain ⟨key, moved⟩ := result
    obtain ⟨-, -, hnear, -⟩ := (messageKey_eq_ok_iff P _ _ _ _).mp h
    omega
  | error e =>
    rcases Cursor.messageKey_eq_error h with ⟨rfl, -⟩ | ⟨-, -, hpassed⟩
    · rfl
    · omega

/-- A frame of the receiving chain that is too far ahead. -/
theorem Session.decrypt_of_far {s : Session α σ} {sealed : SealedFrame α} {chain : Chain α}
    (missing : s.skipped.position (Header.parse sealed.frame) = none)
    (remote : s.remoteRatchet = some (Header.parse sealed.frame).ratchet)
    (receiving : s.receiving = some chain)
    (hahead : chain.next.toNat ≤ (Header.parse sealed.frame).messageNumber.toNat)
    (hfar : 1000 < (Header.parse sealed.frame).messageNumber.toNat - chain.next.toNat)
    (generated : Except CryptoError σ) :
    Session.decrypt P sealed generated s = .error (.error .tooFarAhead) s := by
  rw [decrypt, decryptWith, Transaction.get_bind]
  simp only [missing, if_pos remote]
  rw [decryptInReceivingChain, Transaction.get_bind]
  simp only [receiving]
  rw [Cursor.messageKey_of_far (Cursor.at chain) hahead hfar]
  rfl

namespace World

variable {w : World α σ} {x : Party} {s : Sealing α} {own : σ}

section OutOfReach

variable {naming : Naming} (h : Lockstep P sharedKey naming w)
  (hdistinct : (w.ratchets.map (publicKey P)).Nodup) (hs : s ∈ w.sealings)
  (hsender : s.sender = x.peer)

include h hs hsender

omit [DecidableEq α] in
include hdistinct in
/-- A frame under the ratchet key that the session holds is in the chain that it receives. -/
theorem Lockstep.chain_of_remote
    (hremote : (w.session x).remoteRatchet = some s.header.ratchet) : s.chain = w.steps x := by
  have hratchet := (h.genuine s hs).ratchet
  have hle := (h.genuine s hs).chain_le
  rw [hsender] at hratchet hle
  rw [(h.synced x).remote, ← hratchet] at hremote
  exact h.chain_of_ratchet hdistinct hle (h.steps_le x).1 (h.genuine s hs).chain_pos hremote.symm

omit [DecidableEq α] in
/-- A party whose peer has sealed in the chain that it receives has a receiving chain. -/
theorem Lockstep.exists_receiving_of_chain (hchain : s.chain = w.steps x) :
    ∃ chain, (w.session x).receiving = some chain ∧ chain.next.toNat = w.received x := by
  cases hreceiving : (w.session x).receiving with
  | none =>
    have hmem : s ∈ w.sentIn x.peer (w.steps x) := mem_sentIn.mpr ⟨hs, hsender, hchain⟩
    rw [h.sentIn_eq_nil_of_receiving hreceiving] at hmem
    cases hmem
  | some chain =>
    obtain ⟨-, -, -, hnext⟩ := h.receiving_eq hreceiving
    exact ⟨chain, rfl, hnext⟩

include hdistinct

/-- A frame out of reach that was turned down is reported as too far ahead. -/
theorem Lockstep.refused_far (correct : CorrectPrimitives P) (hnot : ¬ w.Passed x s)
    (hfar : ¬ w.InReach x s) {failure : Failure} {s' : Session α σ}
    (hrun : Session.decrypt P s.sealed (.ok own) (w.session x) = .error failure s')
    {e : Error} (hrefused : Session.Refused P (w.session x) s.sealed (.ok own) e)
    (hfailure : failure = .error e) : e = .tooFarAhead := by
  have hposition := h.position_eq_none hdistinct hs hsender hnot
  obtain ⟨remoteOwn, hremoteOwn⟩ := h.exists_publicKey hs
  -- under the ratchet key that the session holds, the frame is too far ahead in its chain
  have hcurrent : (w.session x).remoteRatchet = some s.header.ratchet → e = .tooFarAhead := by
    intro hremote
    have hchain := h.chain_of_remote hdistinct hs hsender hremote
    obtain ⟨chain, hreceiving, hnext⟩ := h.exists_receiving_of_chain hs hsender hchain
    have hahead : w.received x ≤ s.number :=
      Nat.le_of_not_lt fun hlt => hnot (.inr ⟨hchain, hlt⟩)
    have hmany : 1000 < s.number - w.received x :=
      Nat.lt_of_not_le fun hle => hfar (.inl ⟨hchain, hle⟩)
    rw [← hnext] at hahead hmany
    rw [Session.decrypt_of_far hposition hremote hreceiving hahead hmany] at hrun
    cases hfailure ▸ hrun
    rfl
  cases hrefused with
  | skipped found stored closed =>
    rw [← Sealing.header, hposition] at found
    cases found
  | noChain missing remote receiving => exact hcurrent remote
  | passed missing remote receiving number => exact hcurrent remote
  | farCurrent missing remote receiving far => rfl
  | forgedCurrent missing remote closed => exact hcurrent remote
  | farPrevious missing remote receiving far => rfl
  | lowOrder missing remote zero =>
    rw [← Sealing.header, hremoteOwn] at zero
    exact absurd zero (correct.contributory _ _)
  | noKey missing remote generated => cases generated
  | lowOrderNext missing remote generated zero =>
    rw [← Sealing.header, hremoteOwn] at zero
    exact absurd zero (correct.contributory _ _)
  | farNext missing remote far => rfl
  | forgedNext missing remote near closes receivingKeys closed =>
    -- both chains are within the limits, so that the frame is in reach
    exfalso
    rw [← Sealing.header] at remote
    have hnext : s.chain = w.steps x + 1 := by
      rcases h.chain_of_not_passed hs hsender hnot with ⟨hchain, -⟩ | hnext
      · refine absurd ?_ remote
        rw [(h.synced x).remote, ← (h.genuine s hs).ratchet, hsender, hchain]
      · exact hnext
    refine hfar (.inr ⟨hnext, near, ?_⟩)
    cases hreceiving : (w.session x).receiving with
    | none =>
      rw [h.sentIn_eq_nil_of_receiving hreceiving, List.length_nil, Nat.zero_sub]
      exact Nat.zero_le _
    | some chain =>
      obtain ⟨-, -, -, hreached⟩ := h.receiving_eq hreceiving
      have hprevious := (h.genuine s hs).previous
      rw [hsender, hnext, Nat.add_sub_cancel, Sealing.header] at hprevious
      have hcloses := closes chain hreceiving
      rw [hprevious, hreached] at hcloses
      exact hcloses

/-- What `decrypt` returns for a frame out of reach. -/
theorem Lockstep.output_far (correct : CorrectPrimitives P) (lengths : TagRemoved P)
    (hnot : ¬ w.Passed x s) (hfar : ¬ w.InReach x s) :
    (w.step P (.decrypt x s.sealed (.ok own))).2 = .opened (.error (.error .tooFarAhead)) := by
  cases hrun : Session.decrypt P s.sealed (.ok own) (w.session x) with
  | ok plaintext s' =>
    obtain ⟨key, hdecrypted⟩ := (Session.decryptWith_eq_ok_iff P _ _ _ _ _).mp hrun
    exact absurd (h.inReach_of_decrypted hdistinct hs hsender hnot hdecrypted) hfar
  | error failure s' =>
    obtain ⟨e, hfailure, hrefused⟩ := Session.refused_of_error lengths hrun
    rw [World.step, World.decrypt_of_error P hrun, hfailure,
      h.refused_far hdistinct hs hsender correct hnot hfar hrun hrefused hfailure]

/-- What `decrypt` returns for a frame whose key is stored. -/
theorem Lockstep.output_stored (correct : CorrectPrimitives P) {index : Nat}
    (hposition : (w.session x).skipped.position s.header = some index) :
    (w.step P (.decrypt x s.sealed (.ok own))).2 = .opened (.ok s.plaintext) := by
  obtain ⟨older, entry, newer, hstore, -, hfor, -⟩ :=
    (SkippedKeys.position_eq_some_iff _ _ _).mp hposition
  have hentry : entry ∈ (w.session x).skipped := by
    rw [hstore]
    exact List.mem_append_right _ List.mem_cons_self
  obtain ⟨hstored, -⟩ := h.storedFor_of_isFor hdistinct hs hsender hentry hfor
  obtain ⟨-, -, -, hunopened⟩ := h.stored x entry hentry
  rw [← hstored.name_eq naming] at hunopened
  obtain ⟨key, s', hdecrypted, -⟩ :=
    h.decrypts_stored hdistinct hs hsender hunopened correct (.ok own) hentry hstored
  rw [World.step, decrypt_of_decrypted hdecrypted]

end OutOfReach

/-! ## Frames that stay gone -/

omit [DecidableEq α] [Octet α] in
theorem skipped_recordSealing (session : Session α σ) (sealing : Sealing α)
    (hskipped : session.skipped = (w.session sealing.sender).skipped) (y : Party) :
    ((w.recordSealing session sealing).session y).skipped = (w.session y).skipped := by
  by_cases hy : y = sealing.sender
  · rw [hy, session_recordSealing_self, hskipped]
  · rw [session_recordSealing_of_ne _ _ _ hy]

/-- No call forgets a frame that was sealed. -/
theorem sealings_suffix_step (w : World α σ) (event : Event α σ) :
    w.sealings <:+ (w.step P event).1.sealings := by
  cases hw : w.step P event with
  | mk w' output =>
    have htransition := w.step_transition (P := P) event
    rw [hw] at htransition
    cases htransition with
    | refusedSealing => exact List.suffix_refl _
    | refusedOpening => exact List.suffix_refl _
    | sealed run => exact List.suffix_cons _ _
    | opened run stays => exact List.suffix_refl _
    | stepped run steps => exact List.suffix_refl _

section Stays

variable (h : Lockstep P sharedKey .byKey w) (free : FreeKdf P) (fresh : FreshSharedKey P sharedKey)
  (hdistinct : (w.ratchets.map (publicKey P)).Nodup)

include h free fresh

/-- What an opened frame does to the conversation. -/
theorem Lockstep.delivery_of_decrypted {sealed : SealedFrame α} {generated : Except CryptoError σ}
    {plaintext : Plaintext α} {key : Key α} {s' : Session α σ}
    (hunforged : w.Unforged P (.decrypt x sealed generated))
    (run : Session.Decrypted P (w.session x) sealed generated plaintext key s') :
    ∃ t stepped, Opened P sharedKey .byKey w x sealed plaintext t key s' stepped ∧
      Delivery .byKey w (w.step P (.decrypt x sealed generated)).1 s'
        ⟨x, some key, plaintext, sealed⟩ t := by
  obtain ⟨t, hopened⟩ := h.opening free fresh hunforged run
  refine ⟨t, _, hopened, ?_⟩
  have distinct := h.distinct_byKey free fresh
  rw [World.step, decrypt_of_decrypted run]
  generalize (w.session x).takesStep (Header.parse sealed.frame) = stepped at hopened
  cases hopened with
  | skipped store origin passed stored =>
    exact (h.advance_skipped store origin passed stored).delivery
  | current origin chain ahead => exact (h.advance_current distinct origin chain ahead).delivery
  | step origin chain next ahead sendingKeys =>
    exact (h.stride_step distinct origin chain next ahead rfl sendingKeys).delivery

omit free fresh in
/-- What is gone stays so when a frame is opened. -/
theorem Lockstep.gone_delivery (hdistinct : (w.ratchets.map (publicKey P)).Nodup)
    (hs : s ∈ w.sealings) (hsender : s.sender = x.peer) (hgone : w.Gone x s) {w' : World α σ}
    {y : Party} {sealed : SealedFrame α} {plaintext : Plaintext α} {t : Sealing α} {key : Key α}
    {s' : Session α σ} {stepped : Bool}
    (hopened : Opened P sharedKey .byKey w y sealed plaintext t key s' stepped)
    (d : Delivery .byKey w w' s' ⟨y, some key, plaintext, sealed⟩ t) : w'.Gone x s := by
  refine ⟨d.passed_mono x s hgone.passed, ?_⟩
  by_cases hy : x = y
  · subst hy
    have hself : w'.session x = s' := d.session_self
    rw [hself]
    refine (SkippedKeys.position_eq_none_iff _ _).mpr fun e he hfor => ?_
    -- nothing is added to the store for a frame that was passed
    obtain ⟨added, hsublist, -, hadded⟩ := hopened.exists_added h
    rcases List.mem_append.mp (hsublist.subset he) with hold | hnew
    · exact (SkippedKeys.position_eq_none_iff _ _).mp hgone.notStored e hold hfor
    · obtain ⟨u, hu, hnot⟩ := hadded e hnew
      simp only [SkippedKey.isFor, decide_eq_true_eq] at hfor
      have hus : u = s := by
        refine h.distinct_byLabel hdistinct u hu.1 s hs (hu.2.1.trans hsender.symm) ?_
        rw [hu.name_eq .byLabel, Naming.ofEntry, hfor.1, hfor.2]
        rfl
      exact hnot (hus ▸ hgone.passed)
  · rw [d.session_other x hy]
    exact hgone.notStored

include hdistinct

/-- No call brings a frame back that is gone. -/
theorem Lockstep.gone_step (hs : s ∈ w.sealings) (hsender : s.sender = x.peer)
    (hgone : w.Gone x s) {event : Event α σ} (hunforged : w.Unforged P event) :
    (w.step P event).1.Gone x s := by
  cases hw : w.step P event with
  | mk w' output =>
    have htransition := w.step_transition (P := P) event
    rw [hw] at htransition
    cases htransition with
    | refusedSealing => exact hgone
    | refusedOpening => exact hgone
    | @sealed sender nonce plaintext sealed session chain run =>
      refine ⟨(passed_recordSealing (by rw [run.after]) x s).mpr hgone.passed, ?_⟩
      have hskipped := skipped_recordSealing session
        ⟨sender, w.sendingChain sender, some (kdfChain P chain.key).1, plaintext, sealed⟩
        (by rw [run.after]) x
      exact (congrArg (fun store => store.position s.header) hskipped).trans hgone.notStored
    | opened run stays =>
      obtain ⟨t, stepped, hopened, d⟩ := h.delivery_of_decrypted free fresh hunforged run
      rw [hw] at d
      exact h.gone_delivery hdistinct hs hsender hgone hopened d
    | stepped run steps =>
      obtain ⟨t, stepped, hopened, d⟩ := h.delivery_of_decrypted free fresh hunforged run
      rw [hw] at d
      exact h.gone_delivery hdistinct hs hsender hgone hopened d

omit hdistinct in
/-- No run brings a frame back that is gone. -/
theorem Lockstep.gone_reaches (hs : s ∈ w.sealings) (hsender : s.sender = x.peer)
    (hgone : w.Gone x s) {v : World α σ} (hreaches : World.Reaches P w v)
    (hdistinct : (v.ratchets.map (publicKey P)).Nodup) : v.Gone x s ∧ s ∈ v.sealings := by
  induction hreaches with
  | refl => exact ⟨hgone, hs⟩
  | @tail v event hbefore hunforged ih =>
    have hnodup := nodup_of_suffix (v.ratchets_suffix_step event) hdistinct
    obtain ⟨hgone, hmem⟩ := ih hnodup
    exact ⟨(h.reaches free fresh hbefore).gone_step free fresh hnodup hmem hsender hgone hunforged,
      (v.sealings_suffix_step event).subset hmem⟩

end Stays

/-! ## Every genuine frame -/

/-- A frame that was passed opens only while its key is stored. -/
theorem gone_of_verdict (hpassed : w.Passed x s) (hverdict : w.verdict x s ≠ .opens) :
    w.Gone x s := by
  rw [verdict] at hverdict
  split at hverdict
  · exact absurd rfl hverdict
  · next hnone => exact ⟨hpassed, by simpa using hnone⟩

theorem verdict_of_gone (hgone : w.Gone x s) : w.verdict x s ≠ .opens := by
  rw [verdict, hgone.notStored, if_neg (by simp), if_pos hgone.passed]
  split <;> simp

/-- The answer of `decrypt` is the verdict. -/
theorem Lockstep.output_verdict (h : Lockstep P sharedKey .byKey w) (free : FreeKdf P)
    (fresh : FreshSharedKey P sharedKey) (correct : CorrectPrimitives P) (lengths : TagRemoved P)
    (hdistinct : (w.ratchets.map (publicKey P)).Nodup) (hs : s ∈ w.sealings)
    (hsender : s.sender = x.peer) (hunforged : w.Unforged P (.decrypt x s.sealed (.ok own))) :
    (w.step P (.decrypt x s.sealed (.ok own))).2 = (w.verdict x s).output s := by
  rw [verdict]
  cases hposition : (w.session x).skipped.position s.header with
  | some index => exact h.output_stored hdistinct hs hsender correct hposition
  | none =>
    rw [if_neg (by simp)]
    by_cases hpassed : w.Passed x s
    · rw [if_pos hpassed]
      rcases h.output_gone free fresh hdistinct hs hsender correct lengths ⟨hpassed, hposition⟩
        hunforged with ⟨houtput, hwithin⟩ | ⟨houtput, hbeyond⟩
      · rw [houtput, if_pos hwithin, Verdict.output]
      · rw [houtput, if_neg hbeyond, Verdict.output]
    · rw [if_neg hpassed]
      by_cases hreach : w.InReach x s
      · rw [if_pos hreach]
        exact (h.byLabel hdistinct).output_inReach hdistinct correct hs hsender hpassed hreach own
      · rw [if_neg hreach]
        exact h.output_far hdistinct hs hsender correct lengths hpassed hreach

end World

/-- What becomes of a frame that the peer sealed.  In every state that a conversation reaches,
    delivering it, the RNG working, is answered by the verdict; and a frame that was passed and
    that does not open now opens in no later state. -/
theorem genuine_frame_verdict (free : FreeKdf P) (fresh : FreshSharedKey P sharedKey)
    (correct : CorrectPrimitives P) (lengths : TagRemoved P) {signedPrekey ownRatchet : σ}
    {w₀ w : World α σ} (hstart : World.start P sharedKey signedPrekey ownRatchet = .ok w₀)
    (hreaches : World.Reaches P w₀ w) (hdistinct : (w.ratchets.map (publicKey P)).Nodup)
    {x : Party} {s : Sealing α} (hs : s ∈ w.sealings) (hsender : s.sender = x.peer) :
    (∀ own, w.Unforged P (.decrypt x s.sealed (.ok own)) →
      (w.step P (.decrypt x s.sealed (.ok own))).2 = (w.verdict x s).output s) ∧
    (w.Passed x s → w.verdict x s ≠ .opens →
      ∀ v, World.Reaches P w v → (v.ratchets.map (publicKey P)).Nodup →
        v.verdict x s ≠ .opens) := by
  have h := (World.Lockstep.start hstart).reaches free fresh hreaches
  refine ⟨fun own hunforged => ?_, fun hpassed hverdict v hrun hnodup => ?_⟩
  · exact h.output_verdict free fresh correct lengths hdistinct hs hsender hunforged
  · have hgone := World.gone_of_verdict hpassed hverdict
    obtain ⟨hlater, -⟩ := h.gone_reaches free fresh hs hsender hgone hrun hnodup
    exact World.verdict_of_gone hlater

/-- A frame of a chain that the responder has left is reported as too far ahead, and never opens
    again. -/
theorem genuine_frame_verdict_symbolic : ∃ (w : World Symbolic.Letter Nat)
    (s : Sealing Symbolic.Letter),
    (w.step Symbolic.primitives (.decrypt .responder s.sealed (.ok 6))).2
      = .opened (.error (.error .tooFarAhead)) ∧
    ∀ v, World.Reaches Symbolic.primitives w v →
      (v.ratchets.map (publicKey Symbolic.primitives)).Nodup → v.verdict .responder s ≠ .opens := by
  obtain ⟨w₀, w, near, far, hstart, hreaches, hdistinct, hboth, -, hbeyond⟩ :=
    Symbolic.exists_long_chain
  obtain ⟨hfar, hsender, hopened⟩ := hboth far (.inr rfl)
  have h := (World.Lockstep.start hstart).reaches Symbolic.free Symbolic.fresh hreaches
  obtain ⟨houtput, hnever⟩ := genuine_frame_verdict Symbolic.free Symbolic.fresh Symbolic.correct
    (fun _ _ _ _ _ => Symbolic.length_of_opens) hstart hreaches hdistinct (x := .responder) hfar
    hsender
  have hgone := h.gone_of_opened (x := .responder) hdistinct hfar hsender hopened
  have hverdict : w.verdict .responder far = .tooFarAhead := by
    rw [World.verdict, hgone.notStored, if_neg (by simp), if_pos hgone.passed, if_neg hbeyond]
  refine ⟨w, far, ?_, hnever hgone.passed (by rw [hverdict]; decide)⟩
  rw [houtput 6 (Symbolic.unforged_of_genuine h hfar .responder (.ok 6)), hverdict, Verdict.output]

end Quietwire
