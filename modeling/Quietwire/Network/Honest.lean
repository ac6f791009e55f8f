/-
  Quietwire.Network.Honest

  Sides that hold the private keys of the identities they claim: their sessions
  start, and when both hold the same handshake the responder opens the early
  frames of the initiator.
-/
import Quietwire.Network.Sessions
import Quietwire.Ratchet.Exchange
import Quietwire.X3dh.Agreement

namespace Quietwire

open Transaction Member

variable {α σ δ ρ : Type} [DecidableEq α] [Octet α] {P : Primitives α σ}
  {H : HybridPrimitives α δ ρ}

theorem kdfRoot_of_ne {own : σ} {remote : PublicKey α} (hne : P.x25519 own remote ≠ zeroBytes)
    (rootKey : SecretKey α) :
    kdfRoot P rootKey own remote = .ok (expandRoot P rootKey (P.x25519 own remote)) := by
  rw [kdfRoot_eq, if_neg hne]

namespace Session

/-- A responder that has opened nothing opens an early frame of the first chain. -/
theorem decrypted_first (correct : CorrectPrimitives P) {sharedKey : SecretKey α}
    {signedPrekey own : σ} (own' : σ) {s s' : Session α σ} {nonce : Nonce α}
    {plaintext : Plaintext α} {sealed : SealedFrame α} {chain : Chain α}
    (h : s.Scheduled P sharedKey .initiator [P.x25519 own (publicKey P signedPrekey)] [])
    (hown : s.ownRatchet = own) (run : Sealed P nonce plaintext s sealed s' chain)
    (hnear : chain.next.toNat ≤ 1000) :
    ∃ key s'', Decrypted P (responder sharedKey signedPrekey) sealed (.ok own') plaintext key
      s'' := by
  obtain ⟨secret, older, hagreed, hkey⟩ := h.sending chain run.sending
  obtain ⟨rfl, rfl⟩ := List.cons.inj hagreed
  have hheader := run.header
  have hratchet : (Header.parse sealed.frame).ratchet = publicKey P own := by
    rw [hheader, ← hown]
    rfl
  have hnumber : (Header.parse sealed.frame).messageNumber = chain.next := by
    rw [hheader]
    rfl
  -- both sides compute the same agreement, so the same chain
  have hopens : Opens P (messageKeyAt P (startKeyAfter P sharedKey [] (P.x25519 own
      (publicKey P signedPrekey))) (Header.parse sealed.frame).messageNumber.toNat)
      sealed plaintext := by
    have hseal := run.sealing
    rw [hkey, ← run.nonce_eq] at hseal
    rw [hnumber]
    exact correct.opens_sealed _ _ _ _ _ hseal
  have hreceiving : kdfRoot P sharedKey signedPrekey (Header.parse sealed.frame).ratchet
      = .ok ((expandRoot P sharedKey (P.x25519 own (publicKey P signedPrekey))).1,
        startKeyAfter P sharedKey [] (P.x25519 own (publicKey P signedPrekey))) := by
    rw [hratchet, kdfRoot_eq_ok_iff, correct.commutes signedPrekey own]
    exact ⟨correct.contributory own signedPrekey, rfl, rfl⟩
  have hsending := kdfRoot_of_ne (hratchet ▸ correct.contributory own' own)
    (expandRoot P sharedKey (P.x25519 own (publicKey P signedPrekey))).1
  exact ⟨_, _, .step rfl nofun nofun hreceiving rfl hsending (hnumber ▸ hnear) hopens⟩

end Session

theorem Session.exists_initiatorWith {remote : PublicKey α} {own : σ}
    (hne : P.x25519 own remote ≠ zeroBytes) (sharedKey : SecretKey α) :
    ∃ s chain, Session.initiatorWith P sharedKey remote own = .ok s ∧ s.sending = some chain ∧
      chain.next = 0 := by
  have hroot := kdfRoot_of_ne hne sharedKey
  simp only [Session.initiatorWith, hroot, bind, Except.bind, Chain.start_eq, pure, Except.pure,
    Except.ok.injEq]
  exact ⟨_, _, rfl, rfl, rfl⟩

/-- Honest sides start their sessions. -/
theorem exists_members (correct : CorrectPrimitives P) (kem : CorrectKem H)
    (initiator : Initiator α σ) (responder : Responder α σ δ) (honest : initiator.Honest P)
    (honest' : responder.Honest P H) (ephemeral own : σ) (randomness : ρ) :
    ∃ m m' message chain,
      Member.initiate P H initiator (responder.bundle P) (.ok ephemeral) (.ok randomness) (.ok own)
        = .ok (m, message) ∧
      Member.respond P H responder initiator.identity message = .ok m' ∧
      m.session.sending = some chain ∧ chain.next = 0 := by
  obtain ⟨hinitiate, hrespond⟩ := initiate_respond correct.commutes correct.contributory kem honest
    honest' ephemeral randomness rfl rfl
  obtain ⟨s, chain, hsession, hsending, hnext⟩ :=
    Session.exists_initiatorWith (correct.contributory own responder.signedPrekey)
      ((initiator.keyInput P (responder.bundle P) ephemeral
        (H.encapsulate responder.identity.kem randomness)).sharedKey P H)
  have hstarted : ∃ m message, Member.initiate P H initiator (responder.bundle P) (.ok ephemeral)
      (.ok randomness) (.ok own) = .ok (m, message) ∧ m.session = s ∧ message
        = ⟨publicKey P ephemeral, (H.encapsulate responder.identity.kem randomness).1⟩ := by
    simp only [Member.initiate, except_bind_eq_ok_iff, liftCrypto_eq_ok_iff, Prod.exists]
    exact ⟨_, _, ⟨_, rfl, _, rfl, _, _, hinitiate, s,
      except_bind_eq_ok_iff.mpr ⟨own, rfl, hsession⟩, rfl⟩, rfl, rfl⟩
  obtain ⟨m, message, hm, hs, rfl⟩ := hstarted
  have hanswered : ∃ m', Member.respond P H responder initiator.identity
      ⟨publicKey P ephemeral, (H.encapsulate responder.identity.kem randomness).1⟩ = .ok m' := by
    simp only [Member.respond, except_bind_eq_ok_iff, liftCrypto_eq_ok_iff]
    exact ⟨_, _, hrespond, rfl⟩
  obtain ⟨m', hm'⟩ := hanswered
  exact ⟨m, m', _, chain, hm, hm', hs ▸ hsending, hnext⟩

namespace Session

/-- Calls of `encrypt` only. -/
abbrev Seals (P : Primitives α σ) : Session α σ → Session α σ → Prop :=
  Machine.Reaches (call P) fun _ call => ∃ random plaintext, call = .encrypt random plaintext

/-- Sealing moves a session along its sending chain and nowhere else. -/
theorem Seals.scheduled {sharedKey : SecretKey α} {side : Party} {agreed : List (SecretKey α)}
    {opened : List (Slot α)} {s s' : Session α σ} (hseals : Seals P s s')
    (h : s.Scheduled P sharedKey side agreed opened) :
    s'.Scheduled P sharedKey side agreed opened ∧ s'.ownRatchet = s.ownRatchet := by
  refine hseals.invariant (I := fun t => t.Scheduled P sharedKey side agreed opened ∧
    t.ownRatchet = s.ownRatchet) ?_ ⟨h, rfl⟩
  rintro t call ⟨ht, hown⟩ ⟨random, plaintext, rfl⟩
  have heffect := call_effect (P := P) t (.encrypt random plaintext)
  generalize (t.call P (.encrypt random plaintext)).1 = t' at heffect ⊢
  generalize (t.call P (.encrypt random plaintext)).2 = output at heffect
  cases heffect with
  | refusedSealing run => exact ⟨ht, hown⟩
  | sealed run =>
    refine ⟨(ht.sealed run).2, ?_⟩
    rw [run.after]
    exact hown

end Session

section Matching

variable {initiator : Initiator α σ} {bundle : PrekeyBundle α}
  {generated : Except CryptoError σ} {randomness : Except CryptoError ρ}
  {ratchet : Except CryptoError σ} {message message' : InitialMessage α}
  {responder : Responder α σ δ} {claimed : IdentityPublic α} {m m' : Member α σ}

/-- Sides that hold the same handshake derived their keys from the same input. -/
theorem input_eq_of_matches (correct : CorrectPrimitives P) (kem : CorrectKem H)
    (hinitiate : Member.initiate P H initiator bundle generated randomness ratchet
      = .ok (m, message))
    (hrespond : Member.respond P H responder claimed message' = .ok m')
    (honest : initiator.Honest P) (honest' : responder.Honest P H)
    (hmatch : m.view.Matches m'.view) :
    m.input = m'.input ∧ bundle.signedPrekey = publicKey P responder.signedPrekey := by
  obtain ⟨ephemeral, drawn, own, -, -, hmessage, hview, hinput, -⟩ :=
    Member.initiate_eq_ok hinitiate
  obtain ⟨hview', hinput', -⟩ := Member.respond_eq_ok hrespond
  obtain ⟨-, hinitiator, hbundle, hsent⟩ := hmatch
  rw [hview, hview'] at hinitiator hbundle hsent
  simp only at hinitiator hbundle hsent
  subst hinitiator hsent hmessage
  refine ⟨?_, hbundle ▸ rfl⟩
  rw [hinput, hinput', ← hbundle]
  exact keyInput_eq correct.commutes kem honest honest' ephemeral drawn

/-- Whatever the initiator has sealed by itself, the responder opens, up to the gap that it
    accepts. -/
theorem exists_decrypted (correct : CorrectPrimitives P) (kem : CorrectKem H)
    (hinitiate : Member.initiate P H initiator bundle generated randomness ratchet
      = .ok (m, message))
    (hrespond : Member.respond P H responder claimed message' = .ok m')
    (honest : initiator.Honest P) (honest' : responder.Honest P H)
    (hmatch : m.view.Matches m'.view) {s s' : Session α σ} (hseals : Session.Seals P m.session s)
    {nonce : Nonce α} {plaintext : Plaintext α} {sealed : SealedFrame α} {chain : Chain α}
    (run : Session.Sealed P nonce plaintext s sealed s' chain) (hnear : chain.next.toNat ≤ 1000)
    (own : σ) :
    ∃ key s'', Session.Decrypted P m'.session sealed (.ok own) plaintext key s'' := by
  obtain ⟨_, _, ratchet', -, -, -, -, -, hsession⟩ := Member.initiate_eq_ok hinitiate
  obtain ⟨hstart, hown⟩ := Session.scheduled_initiator hsession
  obtain ⟨hscheduled, hown'⟩ := hseals.scheduled hstart
  obtain ⟨hinputs, hprekey⟩ :=
    input_eq_of_matches correct kem hinitiate hrespond honest honest' hmatch
  rw [hprekey, hinputs] at hscheduled
  rw [(Member.respond_eq_ok hrespond).2.2]
  exact Session.decrypted_first correct own hscheduled (hown'.trans hown) run hnear

end Matching

/-- Two honest sides and the first frame between them, when all of it is allowed. -/
theorem Network.exists_opened (correct : CorrectPrimitives P) (kem : CorrectKem H)
    (total : TotalSealing P) (initiator : Initiator α σ) (responder : Responder α σ δ)
    (honest : initiator.Honest P) (honest' : responder.Honest P H) (ephemeral own own' : σ)
    (randomness : ρ) (nonce : Nonce α) (plaintext : Plaintext α)
    (allowed : Network α σ → Event α σ δ ρ → Prop)
    (hinitiates : ∀ net, allowed net
      (.initiate initiator (responder.bundle P) (.ok ephemeral) (.ok randomness) (.ok own)))
    (hresponds : ∀ net message, allowed net (.respond responder initiator.identity message))
    (hencrypts : ∀ net : Network α σ, (∀ m, net.members[0]? = some m →
        m.input = initiator.keyInput P (responder.bundle P) ephemeral
          (H.encapsulate responder.identity.kem randomness)) →
      allowed net (.call 0 (.encrypt (some nonce) plaintext)))
    (hdecrypts : ∀ (net : Network α σ) (use : Use α) (s s' : Session α σ) (chain : Chain α)
      (random : Option σ), .sealed use ∈ net.log →
      Session.Sealed P nonce use.plaintext s use.sealed s' chain →
      use.key = some (kdfChain P chain.key).1 →
        allowed net (.call 1 (.decrypt use.sealed random))) :
    ∃ (net : Network α σ) (o : Use α), Machine.Reaches (step P H) allowed empty net ∧
      .opened o ∈ net.log ∧ o.input = initiator.keyInput P (responder.bundle P) ephemeral
        (H.encapsulate responder.identity.kem randomness) := by
  obtain ⟨m, m', message, chain, hinitiate, hrespond, hsending, hnext⟩ :=
    exists_members correct kem initiator responder honest honest' ephemeral own randomness
  obtain ⟨ephemeral', randomness', own'', ⟨⟩, ⟨⟩, hmessage, hview, hinput, -⟩ :=
    Member.initiate_eq_ok hinitiate
  have hmatch : m.view.Matches m'.view := by
    rw [hview, (Member.respond_eq_ok hrespond).1]
    exact ⟨rfl, rfl, rfl, rfl⟩
  have hinput' : m'.input = _ := (input_eq_of_matches correct kem hinitiate hrespond honest honest'
    hmatch).1.symm.trans hinput
  have hfirst : chain.next.toNat = 0 := by
    rw [hnext]
    rfl
  obtain ⟨sealed, s, run⟩ := Session.exists_sealed total hsending (by omega) nonce plaintext
  obtain ⟨key, s', runOpen⟩ := exists_decrypted correct kem hinitiate hrespond honest honest'
    hmatch .refl run (by omega) own'
  obtain ⟨random, hopen⟩ := Session.exists_call_of_decrypted runOpen
  let started : Network α σ := ⟨[m, m'], []⟩
  let use : Use α := ⟨0, m.view, m.input, some (kdfChain P chain.key).1, plaintext, sealed⟩
  let talking : Network α σ := ⟨[{ m with session := s }, m'], [.sealed use]⟩
  have hstarted : Machine.Reaches (step P H) allowed empty started := by
    have hone : Machine.Reaches (step P H) allowed empty _ := .tail .refl (hinitiates empty)
    rw [step_initiate hinitiate] at hone
    have htwo := hone.tail (hresponds _ message)
    rw [step_respond hrespond] at htwo
    exact htwo
  have htalking : Machine.Reaches (step P H) allowed empty talking := by
    have hthree := hstarted.tail (hencrypts started (by rintro _ ⟨⟩; exact hinput))
    rw [step_call (m := m) rfl, Session.call_of_sealed run] at hthree
    simp only [recordOf, Session.nextSendingKey, hsending] at hthree
    exact hthree
  have hfour := htalking.tail
    (hdecrypts talking use m.session s chain random List.mem_cons_self run rfl)
  rw [step_call (m := m') rfl, hopen] at hfour
  exact ⟨_, _, hfour, List.mem_cons_self, hinput'⟩

end Quietwire
