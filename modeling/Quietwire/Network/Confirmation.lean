/-
  Quietwire.Network.Confirmation

  The first frame confirms the handshake: a responder opens any one of the first
  1001 frames of an initiator exactly when both hold the same identities, bundle
  and initial message.
-/
import Quietwire.Network.Agreement

namespace Quietwire

open Member

variable {α σ δ ρ : Type} [DecidableEq α] [Octet α] {P : Primitives α σ}
  {H : HybridPrimitives α δ ρ}

section Confirmation

variable {initiator : Initiator α σ} {bundle : PrekeyBundle α}
  {generated : Except CryptoError σ} {randomness : Except CryptoError ρ}
  {ratchet : Except CryptoError σ} {message message' : InitialMessage α}
  {responder : Responder α σ δ} {claimed : IdentityPublic α} {m m' : Member α σ}

/-- The first frame that arrives confirms the handshake.  Whatever bundle the initiator was
    given and whatever identity and message the responder was given, the responder opens any
    of the first 1001 frames of the initiator exactly when both hold the same identities,
    bundle and message; and what it reads then is what was sealed. -/
theorem first_frame_confirms_handshake (correct : CorrectPrimitives P) (free : FreeKdf P)
    (kem : CorrectKem H)
    (hinitiate : Member.initiate P H initiator bundle generated randomness ratchet
      = .ok (m, message))
    (hrespond : Member.respond P H responder claimed message' = .ok m')
    (honest : initiator.Honest P) (honest' : responder.Honest P H)
    (collisionFree : CollisionFree P H {m.input, m'.input})
    (fresh : ∀ a ∈ ({m.input, m'.input} : Set (KeyInput α)), FreshSharedKey P (a.sharedKey P H))
    {s s' : Session α σ} (hseals : Session.Seals P m.session s) {random : Option (Nonce α)}
    {plaintext : Plaintext α} {sealed : SealedFrame α}
    (hsealed : Session.encrypt P (rngFill random) plaintext s = .ok sealed s')
    (hnear : (Header.parse sealed.frame).messageNumber.toNat ≤ 1000)
    (hunforged : ∀ key opened,
      m'.session.messageKeyFor P (Header.parse sealed.frame) = some key →
      Opens P key sealed opened → s.nextSendingKey P = some key ∧ opened = plaintext)
    (own : σ) :
    ((∃ opened s'', Session.decrypt P sealed (.ok own) m'.session = .ok opened s'') ↔
      m.view.Matches m'.view) ∧
    ∀ opened s'', Session.decrypt P sealed (.ok own) m'.session = .ok opened s'' →
      opened = plaintext := by
  obtain ⟨ephemeral, drawn, ratchet', -, -, hmessage, hview, hinput, hsession⟩ :=
    Member.initiate_eq_ok hinitiate
  obtain ⟨hview', hinput', hsession'⟩ := Member.respond_eq_ok hrespond
  obtain ⟨nonce, chain, -, run⟩ := Session.encrypt_eq_ok_iff.mp hsealed
  obtain ⟨hstart, hown⟩ := Session.scheduled_initiator hsession
  obtain ⟨hscheduled, hown'⟩ := hseals.scheduled hstart
  have hstart' : m'.session.Scheduled P (m'.input.sharedKey P H) .responder [] [] := by
    rw [hsession']
    exact Session.scheduled_responder P _ _
  have hnumber : (Header.parse sealed.frame).messageNumber = chain.next := by
    rw [run.header]
    rfl
  have hopened : ∀ opened s'', Session.decrypt P sealed (.ok own) m'.session = .ok opened s'' →
      m.view.Matches m'.view ∧ opened = plaintext := by
    intro opened s'' hdecrypt
    obtain ⟨key, runDecrypt⟩ := (Session.decryptWith_eq_ok_iff P _ _ _ _ _).mp hdecrypt
    obtain ⟨hkey, hplaintext⟩ := hunforged key opened runDecrypt.messageKeyFor runDecrypt.opens
    refine ⟨?_, hplaintext⟩
    -- the key that opened the frame is the one that it was sealed under
    obtain ⟨⟨slot, hslot, -⟩, -⟩ := hscheduled.sealed run
    obtain ⟨-, slot', hslot', -, -⟩ := hstart'.decrypted runDecrypt
    rw [Session.nextSendingKey, run.sending, Option.map_some, Option.some.injEq] at hkey
    have hslots := hslot.symm.trans (hkey.trans hslot')
    obtain ⟨hshared, -⟩ := Slot.key_inj free (fresh _ (.inl rfl)) (fresh _ (.inr rfl)) hslots
    have hinputs := collisionFree.sharedKey_inj (.inl rfl) (.inr rfl) hshared
    have htranscripts := congrArg KeyInput.transcriptBytes hinputs
    rw [hinput, hinput'] at htranscripts
    obtain ⟨hinitiator, hbundle, hsent⟩ := transcriptBytes_inj htranscripts
    rw [hview, hview', hmessage]
    exact ⟨rfl, hinitiator.symm, hbundle.symm, hsent.symm⟩
  refine ⟨⟨?_, ?_⟩, fun opened s'' hdecrypt => (hopened opened s'' hdecrypt).2⟩
  · rintro ⟨opened, s'', hdecrypt⟩
    exact (hopened opened s'' hdecrypt).1
  · intro hmatch
    obtain ⟨key, s'', runDecrypt⟩ := exists_decrypted correct kem hinitiate hrespond honest honest'
      hmatch hseals run (hnumber ▸ hnear) own
    exact ⟨plaintext, s'', (Session.decryptWith_eq_ok_iff P _ _ _ _ _).mpr ⟨key, runDecrypt⟩⟩

end Confirmation

/-- The responder of an exchange opens the initiator's first frame; had it been given another
    signing key with the initiator's identity, it would not. -/
theorem first_frame_confirms_handshake_symbolic :
    ∃ (m m' m'' : Member Symbolic.Letter Nat) (message : InitialMessage Symbolic.Letter)
      (sealed : SealedFrame Symbolic.Letter),
      Member.respond Symbolic.primitives Symbolic.hybrid Symbolic.exchange.responder
        Symbolic.exchange.initiator.identity message = .ok m' ∧
      Member.respond Symbolic.primitives Symbolic.hybrid Symbolic.exchange.responder
        { Symbolic.exchange.initiator.identity with
          sign := Symbolic.exchange.responder.identity.sign } message = .ok m'' ∧
      m.view.Matches m'.view ∧
      (∃ s, Session.decrypt Symbolic.primitives sealed (.ok 8) m'.session
        = .ok Symbolic.plaintext s) ∧
      ∀ opened s,
        Session.decrypt Symbolic.primitives sealed (.ok 8) m''.session ≠ .ok opened s := by
  obtain ⟨m, m', message, chain, hinitiate, hrespond, hsending, hnext⟩ :=
    exists_members Symbolic.correct Symbolic.correctKem Symbolic.exchange.initiator
      Symbolic.exchange.responder rfl ⟨rfl, rfl⟩ 5 7 6
  -- the agreements do not depend on the signing key
  have hanswered : ∃ m'', Member.respond Symbolic.primitives Symbolic.hybrid
      Symbolic.exchange.responder { Symbolic.exchange.initiator.identity with
        sign := Symbolic.exchange.responder.identity.sign } message = .ok m'' :=
    exists_respond_of_dh hrespond rfl
  obtain ⟨m'', hclaimed⟩ := hanswered
  obtain ⟨sealed, s, run⟩ := Session.exists_sealed Symbolic.total hsending
    (by rw [hnext]; decide) Symbolic.nonce Symbolic.plaintext
  have hnumber : (Header.parse sealed.frame).messageNumber = 0 := by
    rw [run.header]
    exact hnext
  have hunforged : ∀ key opened, Opens Symbolic.primitives key sealed opened →
      m.session.nextSendingKey Symbolic.primitives = some key ∧ opened = Symbolic.plaintext := by
    intro key opened hopens
    obtain ⟨hkey, hopened⟩ := Symbolic.opens_sealed_only run hopens
    rw [Session.nextSendingKey, hsending]
    exact ⟨congrArg some hkey, hopened⟩
  have hsealed := Session.encrypt_eq_ok_iff.mpr ⟨Symbolic.nonce, chain, rfl, run⟩
  obtain ⟨_, _, _, -, -, -, hview, -⟩ := initiate_eq_ok hinitiate
  have hmatch : m.view.Matches m'.view := by
    rw [hview, (respond_eq_ok hrespond).1]
    exact ⟨rfl, rfl, rfl, rfl⟩
  refine ⟨m, m', m'', message, sealed, hrespond, hclaimed, hmatch, ?_, fun opened s' hdecrypt => ?_⟩
  · obtain ⟨hiff, hread⟩ := first_frame_confirms_handshake Symbolic.correct Symbolic.free
      Symbolic.correctKem hinitiate hrespond rfl ⟨rfl, rfl⟩
      (Symbolic.collisionFree.mono (Set.subset_univ _)) (fun a _ => Symbolic.fresh_sharedKey a)
      .refl hsealed (by rw [hnumber]; decide) (fun key opened _ => hunforged key opened) 8
    obtain ⟨opened, s', hdecrypt⟩ := hiff.mpr hmatch
    obtain rfl := hread opened s' hdecrypt
    exact ⟨s', hdecrypt⟩
  · obtain ⟨hiff, -⟩ := first_frame_confirms_handshake Symbolic.correct Symbolic.free
      Symbolic.correctKem hinitiate hclaimed rfl ⟨rfl, rfl⟩
      (Symbolic.collisionFree.mono (Set.subset_univ _)) (fun a _ => Symbolic.fresh_sharedKey a)
      .refl hsealed (by rw [hnumber]; decide) (fun key opened _ => hunforged key opened) 8
    have hinitiator := (hiff.mp ⟨opened, s', hdecrypt⟩).initiator
    rw [hview, (respond_eq_ok hclaimed).1] at hinitiator
    have hfirst := congrArg (fun identity => identity.sign.head) hinitiator
    simp [Symbolic.exchange, Symbolic.Exchange.responder, Symbolic.Exchange.initiator,
      Symbolic.identityOf, Vector.head] at hfirst

end Quietwire
