/-
  Quietwire.Fuzz.Steady

  Conversations so short that none of their frames meets a limit: what each call
  returns in them, and that it leaves them so.  The test targets drive
  conversations of this kind.
-/
import Quietwire.Ratchet.Replay
import Quietwire.Ratchet.Reordering
import Quietwire.Ratchet.Unblocking

namespace Quietwire

variable {α σ : Type} [DecidableEq α] [Octet α] {P : Primitives α σ} {sharedKey : SecretKey α}

namespace World

/-- The invariant of a conversation of at most 1 000 frames. -/
structure Steady (P : Primitives α σ) (sharedKey : SecretKey α) (w : World α σ) : Prop where
  lockstep : Lockstep P sharedKey .byKey w
  stocked : w.Stocked
  distinct : (w.ratchets.map (publicKey P)).Nodup
  few : w.sealings.length ≤ 1000

variable {w v : World α σ} {x : Party} {s : Sealing α} {own : σ}

namespace Steady

variable (h : Steady P sharedKey w)
include h

omit h in
theorem start {signedPrekey ownRatchet : σ}
    (hstart : World.start P sharedKey signedPrekey ownRatchet = .ok w)
    (hdistinct : publicKey P ownRatchet ≠ publicKey P signedPrekey) : Steady P sharedKey w := by
  have hlockstep : Lockstep P sharedKey .byKey w := Lockstep.start hstart
  obtain ⟨-, rfl⟩ := World.start_eq_ok_iff.mp hstart
  refine ⟨hlockstep, fun y s hs => ?_, ?_, Nat.zero_le _⟩
  · cases (World.mem_unopened.mp hs).1
  · simp [hdistinct]

theorem byLabel : Lockstep P sharedKey .byLabel w := h.lockstep.byLabel h.distinct

/-! ## Deliveries -/

/-- A frame that its receiver has not opened opens to its plaintext. -/
theorem admits (free : FreeKdf P) (fresh : FreshSharedKey P sharedKey)
    (correct : CorrectPrimitives P) (hs : s ∈ w.unopened x)
    (hown : publicKey P own ∉ w.ratchets.map (publicKey P)) :
    ∃ v, w.step P (.decrypt x s.sealed (.ok own)) = (v, .opened (.ok s.plaintext)) ∧
      w.Admitted x s own v ∧ Steady P sharedKey v := by
  have hmem := (World.mem_unopened.mp hs).1
  have hfew : (w.others x s).length ≤ 1000 :=
    ((List.length_filter_le _ _).trans (List.length_filter_le _ _)).trans h.few
  obtain ⟨key, s', run, hopened⟩ :=
    h.byLabel.decrypts correct (h.stocked x s hs) h.distinct hs hfew own
  have hunforged := unforged_of_decrypted hmem hopened.origin.key_eq run
  have hlockstep := h.lockstep.step (h.lockstep.distinct_byKey free fresh) _
    (h.lockstep.traced free fresh _ hunforged)
  have hstocked := h.stocked.call h.byLabel correct h.distinct (.decrypt x s.sealed (.ok own))
    (.inl ⟨s, hs, rfl, hfew, own, rfl⟩)
  have hadmitted := hopened.admitted run
  have hstep := decrypt_of_decrypted run
  rw [step, hstep] at hlockstep hstocked hadmitted
  refine ⟨_, hstep, hadmitted, hlockstep, hstocked, ?_, ?_⟩
  · rcases hadmitted.ratchets_cases with heq | heq
    · rw [heq]
      exact h.distinct
    · rw [heq, List.map_cons]
      exact List.nodup_cons.mpr ⟨hown, h.distinct⟩
  · rw [hadmitted.sealings]
    exact h.few

omit [DecidableEq α] h in
/-- A party that has opened a frame has taken a ratchet step. -/
theorem steps_pos (hlockstep : Lockstep P sharedKey .byKey w) (hopened : w.openedBy x ≠ []) :
    1 ≤ w.steps x := by
  obtain ⟨o, ho⟩ := List.exists_mem_of_ne_nil _ hopened
  obtain ⟨s, hs, -, -, -, -, hpassed⟩ := hlockstep.opened x o ho
  have hpos := (hlockstep.genuine s hs).chain_pos
  rcases hpassed with hlt | ⟨heq, -⟩
  · omega
  · omega

/-- A frame that its receiver has opened is refused as not authentic. -/
theorem refuses_replay (free : FreeKdf P) (fresh : FreshSharedKey P sharedKey)
    (correct : CorrectPrimitives P) (lengths : TagRemoved P) (hs : s ∈ w.sealings)
    (hsender : s.sender = x.peer) (hopened : s.sealed ∈ (w.openedBy x).map Opening.sealed)
    (hunforged : w.Unforged P (.decrypt x s.sealed (.ok own))) :
    w.step P (.decrypt x s.sealed (.ok own))
      = (w, .opened (.error (.error (.crypto .authentication)))) := by
  have hshort (chain : Nat) : (w.sentIn s.sender chain).length ≤ 1000 :=
    (List.length_filter_le _ _).trans h.few
  have hwithin : w.WithinLimits x s.header := by
    have hnumber := h.lockstep.number_lt (mem_sentIn.mpr ⟨hs, rfl, rfl⟩)
    have hprevious := (h.lockstep.genuine s hs).previous
    have hlast := hshort s.chain
    have hbefore := hshort (s.chain - 1)
    rw [Sealing.number] at hnumber
    exact .inr ⟨by omega, by omega⟩
  rcases h.lockstep.output_replay free fresh h.distinct hs hsender hopened correct lengths
    hunforged with ⟨houtput, -⟩ | ⟨-, hbeyond⟩
  · refine Prod.ext (w.step_of_failedDecrypt P _ ?_) houtput
    rw [houtput]
    rfl
  · exact absurd hwithin hbeyond

omit h in
/-- A frame that nobody sealed is refused. -/
theorem refuses_foreign (lengths : TagRemoved P) {sealed : SealedFrame α}
    {generated : Except CryptoError σ} (hforeign : ∀ s ∈ w.sealings, s.sealed ≠ sealed)
    (hunforged : w.Unforged P (.decrypt x sealed generated)) :
    ∃ e, w.step P (.decrypt x sealed generated) = (w, .opened (.error (.error e))) := by
  cases hrun : Session.decrypt P sealed generated (w.session x) with
  | ok plaintext s' =>
    obtain ⟨key, run⟩ := (Session.decryptWith_eq_ok_iff P _ _ _ _ _).mp hrun
    obtain ⟨t, ht⟩ := hunforged.sealedAs run
    exact absurd ht.sealed_eq (hforeign t ht.mem)
  | error failure s' =>
    obtain ⟨e, rfl, -⟩ := Session.refused_of_error lengths hrun
    exact ⟨e, decrypt_of_error P hrun⟩

/-! ## Sealing -/

/-- A party that has started a sending chain seals its next frame. -/
theorem seals (total : TotalSealing P) (hstarted : 1 ≤ w.sendingChain x)
    (hroom : w.sealings.length < 1000) (nonce : Nonce α) (plaintext : Plaintext α) :
    ∃ s' sealing, w.step P (.encrypt x (.ok nonce) plaintext)
        = (w.recordSealing s' sealing, .sealed (.ok sealing.sealed)) ∧
      sealing.sender = x ∧ sealing.plaintext = plaintext ∧ sealing.sealed.nonce = nonce ∧
      Steady P sharedKey (w.recordSealing s' sealing) := by
  have hlimit : (w.sentIn x (w.sendingChain x)).length < 2000 :=
    Nat.lt_of_le_of_lt ((List.length_filter_le _ _).trans h.few) (by decide)
  obtain ⟨sealed, s', chain, run⟩ := h.lockstep.exists_sealed total hstarted hlimit nonce plaintext
  exact ⟨s', _, encrypt_of_sealed run, rfl, rfl, run.nonce_eq, h.lockstep.recordSealing run,
    h.stocked.sealing h.lockstep run, h.distinct, hroom⟩

/-- A responder that has not opened a frame seals none. -/
theorem blocked (hfirst : w.steps .responder = 0) (nonce : Nonce α) (plaintext : Plaintext α) :
    w.step P (.encrypt .responder (.ok nonce) plaintext)
      = (w, .sealed (.error (.error .sendingBlocked))) := by
  have hblocked : (w.session .responder).Blocked := by
    have hchain : w.sendingChain .responder = 0 := hfirst
    have hlen := h.lockstep.length_era (Nat.le_refl (w.sendingChain .responder))
    have hsending := (h.lockstep.synced .responder).sending
    rcases era_cases (w.eraOf .responder (w.sendingChain .responder)) with
      hshort | ⟨own, remote, rest, hera⟩
    · intro chain hsome
      rw [hsending] at hsome
      have hnone : startKeyOf P sharedKey (w.eraOf .responder (w.sendingChain .responder)) = none :=
        startKeyOf_of_length_le P sharedKey hshort
      rw [hnone] at hsome
      cases hsome
    · rw [hchain] at hera hlen
      rw [hera] at hlen
      simp [Party.eraLen] at hlen
  refine Prod.ext ?_ ((w.encrypt_refused_iff (P := P) _ nonce plaintext).mpr hblocked)
  obtain ⟨s', hrun⟩ := (Session.encrypt_eq_blocked_iff nonce plaintext).mpr hblocked
  rw [step, encrypt_of_error P hrun]

end Steady

end World

end Quietwire
