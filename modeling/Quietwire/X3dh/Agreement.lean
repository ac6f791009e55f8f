/-
  Quietwire.X3dh.Agreement

  The two sides of a handshake derive the same key exactly on matching views: an
  honest responder makes every agreement of the initiator from the other end, and
  the key tells the view of either side.
-/
import Quietwire.X3dh.Transcript
import Quietwire.Symbolic.Hybrid

namespace Quietwire

variable {α σ δ ρ : Type} [Octet α] (P : Primitives α σ) (H : HybridPrimitives α δ ρ)

/-! ## Honest parties -/

/-- The identity of an initiator is that of its private key. -/
def Initiator.Honest (initiator : Initiator α σ) : Prop :=
  initiator.identity.dh = publicKey P initiator.identityDh

/-- The identity of a responder is that of its private keys. -/
structure Responder.Honest (responder : Responder α σ δ) : Prop where
  dh : responder.identity.dh = publicKey P responder.identityDh
  kem : responder.identity.kem = H.encapsulationKey responder.kem

/-- Both sides of an agreement get the same secret. -/
def AgreementsMatch (ours theirs : List (AgreementPair α σ)) : Prop :=
  List.Forall₂ (fun p q => p.2 = publicKey P q.1 ∧ q.2 = publicKey P p.1) ours theirs

variable {P H} {initiator : Initiator α σ} {responder : Responder α σ δ}

/-- The responder makes the agreements of the initiator from the other end. -/
theorem agreementsMatch (honest : initiator.Honest P) (honest' : responder.Honest P H)
    (ephemeral : σ) (kemCiphertext : Ciphertext α) :
    AgreementsMatch P (initiator.agreements (responder.bundle P) ephemeral)
      (responder.agreements initiator.identity ⟨publicKey P ephemeral, kemCiphertext⟩) := by
  refine .cons ⟨rfl, honest⟩ (.cons ⟨honest'.dh, rfl⟩ (.cons ⟨rfl, rfl⟩ ?_))
  -- what is left is the agreement with the one-time prekey, if there is one
  show List.Forall₂ _ ((responder.oneTimePrekey.map (publicKey P)).map (ephemeral, ·)).toList
    (responder.oneTimePrekey.map (·, publicKey P ephemeral)).toList
  cases responder.oneTimePrekey with
  | none => exact .nil
  | some oneTimePrekey => exact .cons ⟨rfl, rfl⟩ .nil

theorem AgreementsMatch.agreed_eq
    (commutes : ∀ a b, P.x25519 a (publicKey P b) = P.x25519 b (publicKey P a))
    {ours theirs : List (AgreementPair α σ)} (h : AgreementsMatch P ours theirs) :
    ours.map (agreed P) = theirs.map (agreed P) := by
  induction h with
  | nil => rfl
  | @cons p q ours theirs hpair _ ih =>
    have hagreed : agreed P p = agreed P q := by
      rw [agreed, agreed, hpair.1, hpair.2, commutes]
    rw [List.map_cons, List.map_cons, hagreed, ih]

theorem AgreementsMatch.ne_zero
    (contributory : ∀ a b, P.x25519 a (publicKey P b) ≠ zeroBytes)
    {ours theirs : List (AgreementPair α σ)} (h : AgreementsMatch P ours theirs) :
    (∀ p ∈ ours, agreed P p ≠ zeroBytes) ∧ ∀ q ∈ theirs, agreed P q ≠ zeroBytes := by
  induction h with
  | nil => exact ⟨nofun, nofun⟩
  | @cons p q ours theirs hpair _ ih =>
    have hp : agreed P p ≠ zeroBytes := by
      rw [agreed, hpair.1]
      exact contributory _ _
    have hq : agreed P q ≠ zeroBytes := by
      rw [agreed, hpair.2]
      exact contributory _ _
    exact ⟨List.forall_mem_cons.mpr ⟨hp, ih.1⟩, List.forall_mem_cons.mpr ⟨hq, ih.2⟩⟩

/-- Both sides derive their key from the same input. -/
theorem keyInput_eq (commutes : ∀ a b, P.x25519 a (publicKey P b) = P.x25519 b (publicKey P a))
    (kem : CorrectKem H) (honest : initiator.Honest P) (honest' : responder.Honest P H)
    (ephemeral : σ) (randomness : ρ) :
    initiator.keyInput P (responder.bundle P) ephemeral
        (H.encapsulate responder.identity.kem randomness)
      = responder.keyInput P H initiator.identity
        ⟨publicKey P ephemeral, (H.encapsulate responder.identity.kem randomness).1⟩ := by
  have hagreed := (agreementsMatch honest honest' ephemeral
    (H.encapsulate responder.identity.kem randomness).1).agreed_eq commutes
  have hshared := kem responder.kem randomness
  rw [← honest'.kem] at hshared
  rw [Initiator.keyInput, Responder.keyInput, hagreed, hshared]

variable [DecidableEq α]

/-- An honest exchange succeeds on both sides, with one key. -/
theorem initiate_respond
    (commutes : ∀ a b, P.x25519 a (publicKey P b) = P.x25519 b (publicKey P a))
    (contributory : ∀ a b, P.x25519 a (publicKey P b) ≠ zeroBytes) (kem : CorrectKem H)
    (honest : initiator.Honest P) (honest' : responder.Honest P H) (ephemeral : σ)
    (randomness : ρ) {encapsulation : Ciphertext α × SecretKey α} {key : SecretKey α}
    (hencapsulation : encapsulation = H.encapsulate responder.identity.kem randomness)
    (hkey : key = (initiator.keyInput P (responder.bundle P) ephemeral
      encapsulation).sharedKey P H) :
    initiator.initiate P H (responder.bundle P) (.ok ephemeral) (.ok randomness)
        = .ok (key, ⟨publicKey P ephemeral, encapsulation.1⟩) ∧
      responder.respond P H initiator.identity ⟨publicKey P ephemeral, encapsulation.1⟩
        = .ok key := by
  have hmatch := agreementsMatch honest honest' ephemeral encapsulation.1
  obtain ⟨hours, htheirs⟩ := hmatch.ne_zero contributory
  subst hencapsulation
  constructor
  · exact Initiator.initiateWith_eq_ok_iff.mpr ⟨hours, rfl, hkey⟩
  · apply Responder.respond_eq_ok_iff.mpr
    rw [keyInput_eq commutes kem honest honest'] at hkey
    exact ⟨htheirs, hkey⟩

/-- Agreement exactly on matching views.  An honest initiator and an honest responder whose
    bundle it used derive the same key; and whoever the two sides are, they derive the same
    key only if they hold the same two identities, prekeys, ephemeral key and ciphertext. -/
theorem agreement_on_matching_views
    (commutes : ∀ a b, P.x25519 a (publicKey P b) = P.x25519 b (publicKey P a))
    (contributory : ∀ a b, P.x25519 a (publicKey P b) ≠ zeroBytes) (kem : CorrectKem H) :
    (∀ (initiator : Initiator α σ) (responder : Responder α σ δ) (ephemeral : σ) (randomness : ρ),
      initiator.Honest P → responder.Honest P H → ∃ key message,
        initiator.initiate P H (responder.bundle P) (.ok ephemeral) (.ok randomness)
          = .ok (key, message) ∧
        responder.respond P H initiator.identity message = .ok key) ∧
    ∀ (inputs : Set (KeyInput α)), CollisionFree P H inputs →
      ∀ (initiator : Initiator α σ) (bundle : PrekeyBundle α) (ephemeral : σ) (randomness : ρ)
        (responder : Responder α σ δ) (claimed : IdentityPublic α)
        (message message' : InitialMessage α) (key : SecretKey α),
        initiator.keyInput P bundle ephemeral (H.encapsulate bundle.identity.kem randomness)
          ∈ inputs →
        responder.keyInput P H claimed message' ∈ inputs →
        initiator.initiate P H bundle (.ok ephemeral) (.ok randomness) = .ok (key, message) →
        responder.respond P H claimed message' = .ok key →
        initiator.identity = claimed ∧ bundle = responder.bundle P ∧ message = message' := by
  constructor
  · intro initiator responder ephemeral randomness honest honest'
    exact ⟨_, _, initiate_respond commutes contributory kem honest honest' ephemeral randomness
      rfl rfl⟩
  · intro inputs free initiator bundle ephemeral randomness responder claimed message message' key
      hours htheirs hinitiate hrespond
    obtain ⟨-, rfl, hkey⟩ := Initiator.initiateWith_eq_ok_iff.mp hinitiate
    obtain ⟨-, hkey'⟩ := Responder.respond_eq_ok_iff.mp hrespond
    -- both sides hashed one input, and the transcript in it tells the views
    have hinput := free.sharedKey_inj hours htheirs (hkey.symm.trans hkey')
    exact transcriptBytes_inj (congrArg KeyInput.transcriptBytes hinput)

/-- An exchange with a one-time prekey: both sides derive the same key, and the responder gets
    this key for no other identity or message. -/
theorem agreement_on_matching_views_symbolic : ∃ key message,
    Symbolic.exchange.initiator.initiate Symbolic.primitives Symbolic.hybrid
        (Symbolic.exchange.responder.bundle Symbolic.primitives) (.ok 5) (.ok 6)
      = .ok (key, message) ∧
    Symbolic.exchange.responder.respond Symbolic.primitives Symbolic.hybrid
        Symbolic.exchange.initiator.identity message = .ok key ∧
    ∀ claimed message', Symbolic.exchange.responder.respond Symbolic.primitives Symbolic.hybrid
        claimed message' = .ok key →
      Symbolic.exchange.initiator.identity = claimed ∧ message = message' := by
  obtain ⟨hagree, hdistinct⟩ := agreement_on_matching_views Symbolic.correct.commutes
    Symbolic.correct.contributory Symbolic.correctKem
  obtain ⟨key, message, hinitiate, hrespond⟩ :=
    hagree Symbolic.exchange.initiator Symbolic.exchange.responder 5 6 rfl ⟨rfl, rfl⟩
  refine ⟨key, message, hinitiate, hrespond, ?_⟩
  intro claimed message' hclaimed
  obtain ⟨hidentity, -, hmessage⟩ := hdistinct Set.univ Symbolic.collisionFree _ _ _ _ _ _ _ _ _
    trivial trivial hinitiate hclaimed
  exact ⟨hidentity, hmessage⟩

end Quietwire
