/-
  Quietwire.Ratchet.Transition

  What one call can do to a conversation, stated once: nothing, a frame sealed,
  a frame opened without a ratchet step, or a frame opened with one.  With it
  come the views of the log that the invariants are stated in.
-/
import Quietwire.Ratchet.Atomicity

namespace Quietwire

/-! ## Views of the log -/

section Views

variable {α σ : Type}

def Record.sealing? : Record α → Option (Sealing α)
  | .sealed sealing => some sealing
  | .opened _ => none

def Record.opening? : Record α → Option (Opening α)
  | .sealed _ => none
  | .opened opening => some opening

namespace World

/-- The successful `encrypt` calls, newest first. -/
def sealings (w : World α σ) : List (Sealing α) := w.log.filterMap Record.sealing?

/-- The successful `decrypt` calls of one party, newest first. -/
def openedBy (w : World α σ) (x : Party) : List (Opening α) :=
  (w.log.filterMap Record.opening?).filter fun opening => opening.receiver = x

/-- The frames of one sending chain, newest first. -/
def sentIn (w : World α σ) (x : Party) (chain : Nat) : List (Sealing α) :=
  w.sealings.filter fun sealing => sealing.sender = x ∧ sealing.chain = chain

theorem mem_sealings {w : World α σ} {s : Sealing α} :
    s ∈ w.sealings ↔ .sealed s ∈ w.log := by
  unfold sealings
  rw [List.mem_filterMap]
  constructor
  · rintro ⟨record, hmem, hrecord⟩
    cases record with
    | sealed sealing =>
      obtain rfl := Option.some.inj hrecord
      exact hmem
    | opened opening => cases hrecord
  · exact fun hmem => ⟨_, hmem, rfl⟩

theorem mem_sentIn {w : World α σ} {x : Party} {chain : Nat} {s : Sealing α} :
    s ∈ w.sentIn x chain ↔ s ∈ w.sealings ∧ s.sender = x ∧ s.chain = chain := by
  simp [sentIn]

theorem mem_openedBy {w : World α σ} {x : Party} {o : Opening α} :
    o ∈ w.openedBy x ↔ .opened o ∈ w.log ∧ o.receiver = x := by
  unfold openedBy
  rw [List.mem_filter, decide_eq_true_iff, List.mem_filterMap]
  refine and_congr_left fun _ => ⟨?_, fun hmem => ⟨_, hmem, rfl⟩⟩
  rintro ⟨record, hmem, hrecord⟩
  cases record with
  | sealed sealing => cases hrecord
  | opened opening =>
    obtain rfl := Option.some.inj hrecord
    exact hmem

section Recording

variable (w : World α σ) (s : Session α σ) (sealing : Sealing α) (opening : Opening α)

@[simp] theorem sealings_recordSealing :
    (w.recordSealing s sealing).sealings = sealing :: w.sealings := rfl

@[simp] theorem sentIn_recordStep (x : Party) (chain : Nat) :
    (w.recordStep s opening).sentIn x chain = w.sentIn x chain := rfl

theorem sentIn_recordSealing_self :
    (w.recordSealing s sealing).sentIn sealing.sender sealing.chain
      = sealing :: w.sentIn sealing.sender sealing.chain := by
  simp [sentIn]

theorem sentIn_recordSealing_of_ne {x : Party} {chain : Nat}
    (h : sealing.sender ≠ x ∨ sealing.chain ≠ chain) :
    (w.recordSealing s sealing).sentIn x chain = w.sentIn x chain := by
  have hnot : ¬ (sealing.sender = x ∧ sealing.chain = chain) := by
    rintro ⟨hx, hc⟩
    exact h.elim (· hx) (· hc)
  simp [sentIn, hnot]

@[simp] theorem openedBy_recordSealing (x : Party) :
    (w.recordSealing s sealing).openedBy x = w.openedBy x := rfl

theorem openedBy_recordOpening_self :
    (w.recordOpening s opening).openedBy opening.receiver
      = opening :: w.openedBy opening.receiver := by
  simp [openedBy, recordOpening, Record.opening?]

theorem openedBy_recordOpening_of_ne {x : Party} (h : opening.receiver ≠ x) :
    (w.recordOpening s opening).openedBy x = w.openedBy x := by
  simp [openedBy, recordOpening, Record.opening?, h]

theorem openedBy_recordStep (x : Party) :
    (w.recordStep s opening).openedBy x = (w.recordOpening s opening).openedBy x := rfl

@[simp] theorem session_recordSealing_self :
    (w.recordSealing s sealing).session sealing.sender = s := Function.update_self _ _ _

@[simp] theorem session_recordOpening_self :
    (w.recordOpening s opening).session opening.receiver = s := Function.update_self _ _ _

@[simp] theorem session_recordStep_self :
    (w.recordStep s opening).session opening.receiver = s := Function.update_self _ _ _

theorem session_recordSealing_of_ne {x : Party} (h : x ≠ sealing.sender) :
    (w.recordSealing s sealing).session x = w.session x := Function.update_of_ne h _ _

theorem session_recordOpening_of_ne {x : Party} (h : x ≠ opening.receiver) :
    (w.recordOpening s opening).session x = w.session x := Function.update_of_ne h _ _

theorem session_recordStep_of_ne {x : Party} (h : x ≠ opening.receiver) :
    (w.recordStep s opening).session x = w.session x := Function.update_of_ne h _ _

@[simp] theorem steps_recordSealing : (w.recordSealing s sealing).steps = w.steps := rfl

@[simp] theorem steps_recordOpening : (w.recordOpening s opening).steps = w.steps := rfl

@[simp] theorem steps_recordStep_self :
    (w.recordStep s opening).steps opening.receiver = w.steps opening.receiver + 1 :=
  Function.update_self _ _ _

theorem steps_recordStep_of_ne {x : Party} (h : x ≠ opening.receiver) :
    (w.recordStep s opening).steps x = w.steps x := Function.update_of_ne h _ _

@[simp] theorem chainStart_recordStep_self :
    (w.recordStep s opening).chainStart opening.receiver = s.sending.map Chain.key :=
  Function.update_self _ _ _

@[simp] theorem ratchets_recordSealing : (w.recordSealing s sealing).ratchets = w.ratchets := rfl

@[simp] theorem ratchets_recordStep :
    (w.recordStep s opening).ratchets = s.ownRatchet :: w.ratchets := rfl

end Recording

@[simp] theorem sendingChain_recordSealing (w : World α σ) (s : Session α σ)
    (sealing : Sealing α) (x : Party) :
    (w.recordSealing s sealing).sendingChain x = w.sendingChain x := by
  cases x <;> rfl

@[simp] theorem sendingChain_recordOpening (w : World α σ) (s : Session α σ)
    (opening : Opening α) (x : Party) :
    (w.recordOpening s opening).sendingChain x = w.sendingChain x := by
  cases x <;> rfl

/-- How many sending chains a party has started, from its ratchet steps alone. -/
theorem sendingChain_eq (w : World α σ) (x : Party) :
    w.sendingChain x = w.steps x + (if x = .initiator then 1 else 0) := by
  cases x <;> simp [sendingChain]

end World

end Views

variable {α σ : Type} [DecidableEq α] [Octet α] (P : Primitives α σ)

/-! ## The key and the path of an opened frame -/

namespace Session

variable {s s' : Session α σ} {sealed : SealedFrame α} {generated : Except CryptoError σ}
  {plaintext : Plaintext α} {key : Key α}

omit [Octet α] in
theorem position_of_first {header : Header α} {older newer : SkippedKeys α}
    {entry : SkippedKey α} (hstore : s.skipped = older ++ entry :: newer)
    (hfor : SkippedKey.isFor header entry) (hfirst : ∀ e ∈ older, ¬ SkippedKey.isFor header e) :
    s.skipped.position header = some older.length :=
  (SkippedKeys.position_eq_some_iff _ _ _).mpr ⟨older, entry, newer, hstore, rfl, hfor, hfirst⟩

omit [Octet α] in
theorem takesStep_of_stored {header : Header α} {older newer : SkippedKeys α}
    {entry : SkippedKey α} (hstore : s.skipped = older ++ entry :: newer)
    (hfor : SkippedKey.isFor header entry) (hfirst : ∀ e ∈ older, ¬ SkippedKey.isFor header e) :
    s.takesStep header = false := by
  simp [takesStep, position_of_first hstore hfor hfirst]

omit [Octet α] in
theorem takesStep_of_remote {header : Header α}
    (hremote : s.remoteRatchet = some header.ratchet) : s.takesStep header = false := by
  simp [takesStep, hremote]

omit [Octet α] in
theorem takesStep_of_ne {header : Header α} (hmissing : s.skipped.position header = none)
    (hremote : s.remoteRatchet ≠ some header.ratchet) : s.takesStep header = true := by
  simp [takesStep, hmissing, hremote]

/-- The key a frame opened under is the key the session tried it under. -/
theorem Decrypted.messageKeyFor (h : Decrypted P s sealed generated plaintext key s') :
    s.messageKeyFor P (Header.parse sealed.frame) = some key := by
  unfold Session.messageKeyFor
  cases h with
  | @skipped older newer entry store found first opens =>
    rw [position_of_first store found first]
    simp only [store, SkippedKeys.key_append_cons]
  | @current chain missing remote receiving belowLimit notPassed near opens =>
    have hkey := (Cursor.messageKey_eq_ok_iff P (Cursor.at chain) _ _ _).mpr
      ⟨belowLimit, notPassed, near, rfl, rfl⟩
    rw [missing]
    simp only [remote, receiving, if_true, hkey, Except.toOption, Option.map_some]
    rfl
  | @step own middle root receiving sending missing remote closes receivingKeys generated
      sendingKeys near opens =>
    have hlimit : (Header.parse sealed.frame).messageNumber.toNat < 2000 := by omega
    have hkey := (Cursor.messageKey_eq_ok_iff P (Cursor.new receiving) _ _ _).mpr
      ⟨hlimit, Nat.zero_le _, near, rfl, rfl⟩
    rw [missing]
    simp only [remote, if_false, receivingKeys, hkey, Except.toOption, Option.map_some]
    rfl

/-- A ratchet step takes the ratchet key that was drawn. -/
theorem Decrypted.ownRatchet_eq {own : σ} (h : Decrypted P s sealed (.ok own) plaintext key s')
    (hsteps : s.takesStep (Header.parse sealed.frame) = true) : s'.ownRatchet = own := by
  cases h with
  | skipped store found first opens =>
    rw [takesStep_of_stored store found first] at hsteps
    cases hsteps
  | current missing remote receiving belowLimit notPassed near opens =>
    rw [takesStep_of_remote remote] at hsteps
    cases hsteps
  | step missing remote closes receivingKeys generated sendingKeys near opens =>
    obtain rfl := Except.ok.inj generated
    rfl

/-- A frame that opens without a ratchet step opens whatever the RNG does. -/
theorem Decrypted.of_stays (h : Decrypted P s sealed generated plaintext key s')
    (hstays : s.takesStep (Header.parse sealed.frame) = false)
    (generated' : Except CryptoError σ) : Decrypted P s sealed generated' plaintext key s' := by
  cases h with
  | skipped store found first opens => exact .skipped store found first opens
  | current missing remote receiving belowLimit notPassed near opens =>
    exact .current missing remote receiving belowLimit notPassed near opens
  | step missing remote closes receivingKeys generated sendingKeys near opens =>
    rw [takesStep_of_ne missing remote] at hstays
    cases hstays

/-- Without a ratchet step, only the receiving chain and the store change. -/
theorem Decrypted.eq_of_stays (h : Decrypted P s sealed generated plaintext key s')
    (hstays : s.takesStep (Header.parse sealed.frame) = false) :
    s' = { s with receiving := s'.receiving, skipped := s'.skipped } := by
  cases h with
  | skipped store found first opens => rfl
  | current missing remote receiving belowLimit notPassed near opens => rfl
  | step missing remote closes receivingKeys generated sendingKeys near opens =>
    rw [takesStep_of_ne missing remote] at hstays
    cases hstays

/-- A ratchet step starts a sending chain, and keeps the length of the one before. -/
theorem Decrypted.sending_of_steps (h : Decrypted P s sealed generated plaintext key s')
    (hsteps : s.takesStep (Header.parse sealed.frame) = true) :
    (∃ start, s'.sending = some { key := start, next := 0 }) ∧
      s'.previousSendingLen = (s.sending.map Chain.next).getD 0 := by
  cases h with
  | skipped store found first opens =>
    rw [takesStep_of_stored store found first] at hsteps
    cases hsteps
  | current missing remote receiving belowLimit notPassed near opens =>
    rw [takesStep_of_remote remote] at hsteps
    cases hsteps
  | step missing remote closes receivingKeys generated sendingKeys near opens =>
    exact ⟨⟨_, rfl⟩, rfl⟩

/-- A call has one result. -/
theorem Decrypted.unique {plaintext₁ plaintext₂ : Plaintext α} {key₁ key₂ : Key α}
    {s₁ s₂ : Session α σ} (h₁ : Decrypted P s sealed generated plaintext₁ key₁ s₁)
    (h₂ : Decrypted P s sealed generated plaintext₂ key₂ s₂) :
    plaintext₁ = plaintext₂ ∧ key₁ = key₂ ∧ s₁ = s₂ := by
  have hrun₁ := (decryptWith_eq_ok_iff P sealed generated s s₁ plaintext₁).mpr ⟨key₁, h₁⟩
  have hrun₂ := (decryptWith_eq_ok_iff P sealed generated s s₂ plaintext₂).mpr ⟨key₂, h₂⟩
  obtain ⟨hplaintext, hsession⟩ := EStateM.Result.ok.inj (hrun₁.symm.trans hrun₂)
  have hkey := h₁.messageKeyFor.symm.trans h₂.messageKeyFor
  exact ⟨hplaintext, Option.some.inj hkey, hsession⟩

theorem Decrypted.opens (h : Decrypted P s sealed generated plaintext key s') :
    Opens P key sealed plaintext := by
  cases h with
  | skipped store found first opens => exact opens
  | current missing remote receiving belowLimit notPassed near opens => exact opens
  | step missing remote closes receivingKeys generated sendingKeys near opens => exact opens

end Session

/-! ## Transitions -/

namespace World

/-- What a call does to a conversation, and what it returns. -/
inductive Transition (w : World α σ) : Event α σ → World α σ → Output α → Prop
  | refusedSealing {sender : Party} {random : Except CryptoError (Nonce α)}
      {plaintext : Plaintext α} {failure : Failure} :
      Transition w (.encrypt sender random plaintext) w (.sealed (.error failure))
  | refusedOpening {receiver : Party} {sealed : SealedFrame α}
      {generated : Except CryptoError σ} {failure : Failure} :
      Transition w (.decrypt receiver sealed generated) w (.opened (.error failure))
  | sealed {sender : Party} {nonce : Nonce α} {plaintext : Plaintext α}
      {sealed : SealedFrame α} {s : Session α σ} {chain : Chain α}
      (run : Session.Sealed P nonce plaintext (w.session sender) sealed s chain) :
      Transition w (.encrypt sender (.ok nonce) plaintext)
        (w.recordSealing s
          ⟨sender, w.sendingChain sender, some (kdfChain P chain.key).1, plaintext, sealed⟩)
        (.sealed (.ok sealed))
  | opened {receiver : Party} {sealed : SealedFrame α} {generated : Except CryptoError σ}
      {plaintext : Plaintext α} {key : Key α} {s : Session α σ}
      (run : Session.Decrypted P (w.session receiver) sealed generated plaintext key s)
      (stays : (w.session receiver).takesStep (Header.parse sealed.frame) = false) :
      Transition w (.decrypt receiver sealed generated)
        (w.recordOpening s ⟨receiver, some key, plaintext, sealed⟩) (.opened (.ok plaintext))
  | stepped {receiver : Party} {sealed : SealedFrame α} {generated : Except CryptoError σ}
      {plaintext : Plaintext α} {key : Key α} {s : Session α σ}
      (run : Session.Decrypted P (w.session receiver) sealed generated plaintext key s)
      (steps : (w.session receiver).takesStep (Header.parse sealed.frame) = true) :
      Transition w (.decrypt receiver sealed generated)
        (w.recordStep s ⟨receiver, some key, plaintext, sealed⟩) (.opened (.ok plaintext))

variable {P}

omit [DecidableEq α] in
theorem encrypt_of_sealed {w : World α σ} {sender : Party} {nonce : Nonce α}
    {plaintext : Plaintext α} {sealed : SealedFrame α} {s : Session α σ} {chain : Chain α}
    (h : Session.Sealed P nonce plaintext (w.session sender) sealed s chain) :
    w.encrypt P sender (.ok nonce) plaintext =
      (w.recordSealing s
        ⟨sender, w.sendingChain sender, some (kdfChain P chain.key).1, plaintext, sealed⟩,
        .sealed (.ok sealed)) := by
  have hrun : Session.encrypt P (.ok nonce) plaintext (w.session sender) = .ok sealed s :=
    (Session.encryptWith_eq_ok_iff P nonce plaintext _ _ _).mpr ⟨chain, h⟩
  simp only [encrypt, hrun, Session.nextSendingKey, h.sending, Option.map_some]

theorem decrypt_of_decrypted {w : World α σ} {receiver : Party} {sealed : SealedFrame α}
    {generated : Except CryptoError σ} {plaintext : Plaintext α} {key : Key α}
    {s : Session α σ}
    (h : Session.Decrypted P (w.session receiver) sealed generated plaintext key s) :
    w.decrypt P receiver sealed generated =
      (if (w.session receiver).takesStep (Header.parse sealed.frame) then
          w.recordStep s ⟨receiver, some key, plaintext, sealed⟩
        else w.recordOpening s ⟨receiver, some key, plaintext, sealed⟩,
        .opened (.ok plaintext)) := by
  have hrun : Session.decrypt P sealed generated (w.session receiver) = .ok plaintext s :=
    (Session.decryptWith_eq_ok_iff P sealed generated _ _ _).mpr ⟨key, h⟩
  simp only [decrypt, hrun, h.messageKeyFor]

theorem step_transition (w : World α σ) (event : Event α σ) :
    Transition P w event (w.step P event).1 (w.step P event).2 := by
  cases event with
  | encrypt sender random plaintext =>
    cases hrun : Session.encrypt P random plaintext (w.session sender) with
    | error failure s =>
      rw [step, encrypt_of_error P hrun]
      exact .refusedSealing
    | ok sealed s =>
      -- the nonce was drawn before anything else
      obtain ⟨nonce, t, hrandom, hwith⟩ := (Transaction.bind_eq_ok_iff _ _ _ _ _).mp hrun
      obtain ⟨hnonce, rfl⟩ := (orFailCrypto_eq_ok_iff _ _ _ _).mp hrandom
      obtain rfl := hnonce
      obtain ⟨chain, hsealed⟩ := (Session.encryptWith_eq_ok_iff P _ _ _ _ _).mp hwith
      rw [step, encrypt_of_sealed hsealed]
      exact .sealed hsealed
  | decrypt receiver sealed generated =>
    cases hrun : Session.decrypt P sealed generated (w.session receiver) with
    | error failure s =>
      rw [step, decrypt_of_error P hrun]
      exact .refusedOpening
    | ok plaintext s =>
      obtain ⟨key, hdecrypted⟩ := (Session.decryptWith_eq_ok_iff P _ _ _ _ _).mp hrun
      rw [step, decrypt_of_decrypted hdecrypted]
      -- which of the two it was is read off the session before the call
      cases hsteps : (w.session receiver).takesStep (Header.parse sealed.frame) with
      | false => exact .opened hdecrypted hsteps
      | true => exact .stepped hdecrypted hsteps

/-- No call forgets a ratchet key. -/
theorem ratchets_suffix_step (w : World α σ) (event : Event α σ) :
    w.ratchets <:+ (w.step P event).1.ratchets := by
  cases hw : w.step P event with
  | mk w' output =>
    have htransition := w.step_transition (P := P) event
    rw [hw] at htransition
    cases htransition with
    | refusedSealing => exact List.suffix_refl _
    | refusedOpening => exact List.suffix_refl _
    | sealed run => exact List.suffix_refl _
    | opened run stays => exact List.suffix_refl _
    | stepped run steps => exact List.suffix_cons _ _

/-! ## What a step of the conversation says about the session -/

section Session

variable {w v : World α σ} {x : Party} {sealed : SealedFrame α}
  {generated : Except CryptoError σ} {plaintext : Plaintext α}
  {nonce : Except CryptoError (Nonce α)} {failure : Failure}

theorem decrypt_eq_ok (h : w.step P (.decrypt x sealed generated) = (v, .opened (.ok plaintext))) :
    Session.decrypt P sealed generated (w.session x) = .ok plaintext (v.session x) := by
  rw [step, decrypt] at h
  cases hrun : Session.decrypt P sealed generated (w.session x) with
  | ok plaintext' s' =>
    simp only [hrun, Prod.mk.injEq, Output.opened.injEq, Except.ok.injEq] at h
    obtain ⟨rfl, rfl⟩ := h
    split
    · exact congrArg _ (session_recordStep_self w s' _).symm
    · exact congrArg _ (session_recordOpening_self w s' _).symm
  | error failure s' =>
    simp only [hrun, Prod.mk.injEq, Output.opened.injEq, reduceCtorEq, and_false] at h

theorem decrypt_eq_error
    (h : w.step P (.decrypt x sealed generated) = (w, .opened (.error failure))) :
    Session.decrypt P sealed generated (w.session x) = .error failure (w.session x) := by
  rw [step, decrypt] at h
  cases hrun : Session.decrypt P sealed generated (w.session x) with
  | ok plaintext s' =>
    simp only [hrun, Prod.mk.injEq, Output.opened.injEq, reduceCtorEq, and_false] at h
  | error failure' s' =>
    simp only [hrun, Prod.mk.injEq, Output.opened.injEq, Except.error.injEq] at h
    rw [h.2, Session.decrypt_atomic P sealed generated _ _ _ hrun]

theorem encrypt_eq_ok (h : w.step P (.encrypt x nonce plaintext) = (v, .sealed (.ok sealed))) :
    Session.encrypt P nonce plaintext (w.session x) = .ok sealed (v.session x) := by
  rw [step, encrypt] at h
  cases hrun : Session.encrypt P nonce plaintext (w.session x) with
  | ok sealed' s' =>
    simp only [hrun, Prod.mk.injEq, Output.sealed.injEq, Except.ok.injEq] at h
    obtain ⟨rfl, rfl⟩ := h
    exact congrArg _ (Function.update_self x s' w.session).symm
  | error failure s' =>
    simp only [hrun, Prod.mk.injEq, Output.sealed.injEq, reduceCtorEq, and_false] at h

theorem encrypt_eq_error
    (h : w.step P (.encrypt x nonce plaintext) = (w, .sealed (.error failure))) :
    Session.encrypt P nonce plaintext (w.session x) = .error failure (w.session x) := by
  rw [step, encrypt] at h
  cases hrun : Session.encrypt P nonce plaintext (w.session x) with
  | ok sealed s' =>
    simp only [hrun, Prod.mk.injEq, Output.sealed.injEq, reduceCtorEq, and_false] at h
  | error failure' s' =>
    simp only [hrun, Prod.mk.injEq, Output.sealed.injEq, Except.error.injEq] at h
    rw [h.2, Session.encrypt_atomic P nonce plaintext _ _ _ hrun]

end Session

end World

end Quietwire
