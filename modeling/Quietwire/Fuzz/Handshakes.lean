/-
  Quietwire.Fuzz.Handshakes

  The targets `x3dh_bundle` and `x3dh_initial_message`: a handshake with a peer
  that sends any bytes for its keys.  A handshake refuses public keys only, so that
  neither target fails.

  Which bytes the libraries parse as a key is a parameter.
-/
import Quietwire.Fuzz.RatchetHeader
import Quietwire.Network.Honest
import Quietwire.Symbolic.Rounds
import Quietwire.X3dh.Refusal

namespace Quietwire

variable {α σ δ ρ : Type} [DecidableEq α] [Octet α] {P : Primitives α σ}
  {H : HybridPrimitives α δ ρ}

namespace Fuzz

/-! ## What the targets share -/

/-- Which bytes `ed25519_dalek` and `ml_kem_768` parse as a public key. -/
structure KeyParsers (α : Type) where
  verifyingKey : Vector α verifyingKeyLen → Bool
  encapsulationKey : Vector α encapsulationKeyLen → Bool

def verifyingKeyFromBytes (parsers : KeyParsers α) (bytes : Vector α verifyingKeyLen) :
    Except CryptoError (VerifyingKey α) :=
  if parsers.verifyingKey bytes then .ok bytes else .error .invalidPublicKey

def encapsulationKeyFromBytes (parsers : KeyParsers α) (bytes : Vector α encapsulationKeyLen) :
    Except CryptoError (EncapsulationKey α) :=
  if parsers.encapsulationKey bytes then .ok bytes else .error .invalidPublicKey

/-- A genuine key with edits, or any bytes. -/
abbrev KemKey (α : Type) := Bytes α encapsulationKeyLen

def KemKey.toBytes (genuineKem : EncapsulationKey α) (key : KemKey α) :
    Vector α encapsulationKeyLen :=
  key.resolve (by decide) genuineKem

/-- An identity as a peer sends it, before parsing. -/
structure PeerIdentity (α : Type) where
  sign : Vector α verifyingKeyLen
  dh : Vector α publicKeyLen
  kem : KemKey α

/-- The identity, or `none` when a key does not parse. -/
def PeerIdentity.parse (parsers : KeyParsers α) (genuineKem : EncapsulationKey α)
    (identity : PeerIdentity α) : Option (IdentityPublic α) :=
  (verifyingKeyFromBytes parsers identity.sign).toOption.bind fun sign =>
    (encapsulationKeyFromBytes parsers (identity.kem.toBytes genuineKem)).toOption.bind fun kem =>
      some { sign, dh := identity.dh, kem }

/-- Every private key an X3DH party holds, with its public identity. -/
structure PartyKeys (α σ δ : Type) where
  identity : IdentityPublic α
  identityDh : σ
  kem : δ
  signedPrekey : σ
  oneTimePrekey : σ

/-- A party with the keys that the RNG gave it. -/
def PartyKeys.generate (P : Primitives α σ) (H : HybridPrimitives α δ ρ) (sign : VerifyingKey α)
    (identityDh : σ) (kem : δ) (signedPrekey oneTimePrekey : σ) : PartyKeys α σ δ where
  identity := { sign, dh := publicKey P identityDh, kem := H.encapsulationKey kem }
  identityDh
  kem
  signedPrekey
  oneTimePrekey

/-- The party starting a session. -/
def PartyKeys.initiator (party : PartyKeys α σ δ) : Initiator α σ where
  identity := party.identity
  identityDh := party.identityDh

/-- The party answering a session, with or without its one-time prekey. -/
def PartyKeys.responder (party : PartyKeys α σ δ) (withOneTimePrekey : Bool) :
    Responder α σ δ where
  identity := party.identity
  identityDh := party.identityDh
  kem := party.kem
  signedPrekey := party.signedPrekey
  oneTimePrekey := if withOneTimePrekey then some party.oneTimePrekey else none

/-! ## The two targets -/

/-- The input of `x3dh_bundle`. -/
structure Bundle (α : Type) where
  identity : PeerIdentity α
  signedPrekey : Vector α publicKeyLen
  oneTimePrekey : Option (Vector α publicKeyLen)

def Bundle.parse (parsers : KeyParsers α) (genuineKem : EncapsulationKey α) (bundle : Bundle α) :
    Option (PrekeyBundle α) :=
  (bundle.identity.parse parsers genuineKem).bind fun identity =>
    some { identity, signedPrekey := bundle.signedPrekey, oneTimePrekey := bundle.oneTimePrekey }

/-- The input of `x3dh_initial_message`. -/
structure Initial (α : Type) where
  initiator : PeerIdentity α
  ephemeral : Vector α publicKeyLen
  kemCiphertext : Vector α ciphertextLen
  withOneTimePrekey : Bool

/-- `Ok(_) | Err(Error::InvalidPublicKey) => {}`. -/
def expected {β : Type} (result : Except CryptoError β) : Except Panic Unit :=
  match result with
  | .ok _ | .error .invalidPublicKey => .ok ()
  | .error _ => .error .unexpected

variable (P H)

/-- The target, with what the RNG gives to the handshake. -/
def x3dhBundle (parsers : KeyParsers α) (genuineKem : EncapsulationKey α)
    (party : PartyKeys α σ δ) (ephemeral : σ) (randomness : ρ) (input : Bundle α) :
    Except Panic Unit :=
  match input.parse parsers genuineKem with
  | none => .ok ()
  | some bundle =>
    expected (party.initiator.initiate P H bundle (.ok ephemeral) (.ok randomness))

def x3dhInitialMessage (parsers : KeyParsers α) (genuineKem : EncapsulationKey α)
    (party : PartyKeys α σ δ) (input : Initial α) : Except Panic Unit :=
  match input.initiator.parse parsers genuineKem with
  | none => .ok ()
  | some initiator =>
    let message := { ephemeral := input.ephemeral, kemCiphertext := input.kemCiphertext }
    expected ((party.responder input.withOneTimePrekey).respond P H initiator message)

variable {P H}

theorem expected_of_error {β : Type} {result : Except CryptoError β}
    (h : OnlyRefuses result) : expected result = .ok () := by
  cases result with
  | ok b => rfl
  | error e =>
    obtain rfl := h e rfl
    rfl

/-! ## What the targets never do -/

section LowOrder

variable {lowOrder : Set (PublicKey α)} (hlow : LowOrder P lowOrder)
include hlow

/-- What an initiator accepts, it can start a session with. -/
theorem exists_session_of_initiate {initiator : Initiator α σ} {bundle : PrekeyBundle α}
    {ephemeral : σ} {randomness : ρ} {key : SecretKey α} {message : InitialMessage α}
    (h : initiator.initiate P H bundle (.ok ephemeral) (.ok randomness) = .ok (key, message))
    (ratchet : σ) :
    ∃ session, Session.initiator P key bundle.signedPrekey (.ok ratchet) = .ok session := by
  have haccepted := (Initiator.initiateWith_eq_ok_iff.mp h).1
  have hprekey : bundle.signedPrekey ∉ lowOrder := by
    rw [← hlow initiator.identityDh]
    exact haccepted _ (List.mem_append_left _ List.mem_cons_self)
  have hne : P.x25519 ratchet bundle.signedPrekey ≠ zeroBytes := fun hzero =>
    hprekey ((hlow ratchet bundle.signedPrekey).mp hzero)
  obtain ⟨session, -, hstart, -⟩ := Session.exists_initiatorWith hne key
  exact ⟨session, hstart⟩

/-- Whatever keys a peer sends, a handshake refuses exactly those of low order, as invalid
    public keys, on either side, and fails otherwise only where the RNG does; what an initiator
    accepts, it starts a session with; and no input makes one of the two targets fail. -/
theorem handshakes_refuse_low_order (parsers : KeyParsers α) (genuineKem : EncapsulationKey α)
    (party : PartyKeys α σ δ) :
    (∀ bundle generated randomness e,
      party.initiator.initiate P H bundle generated randomness = .error e ↔
        generated = .error e ∨ ∃ ephemeral, generated = .ok ephemeral ∧
          (randomness = .error e ∨ ∃ r, randomness = .ok r ∧
            e = .invalidPublicKey ∧ ∃ key ∈ bundle.dhKeys, key ∈ lowOrder)) ∧
    (∀ withOneTimePrekey initiator message e,
      (party.responder withOneTimePrekey).respond P H initiator message = .error e ↔
        e = .invalidPublicKey ∧ (initiator.dh ∈ lowOrder ∨ message.ephemeral ∈ lowOrder)) ∧
    (∀ bundle ephemeral r key message,
      party.initiator.initiate P H bundle (.ok ephemeral) (.ok r) = .ok (key, message) →
        ∀ ratchet, ∃ session,
          Session.initiator P key bundle.signedPrekey (.ok ratchet) = .ok session) ∧
    (∀ ephemeral r input, x3dhBundle P H parsers genuineKem party ephemeral r input = .ok ()) ∧
    ∀ input, x3dhInitialMessage P H parsers genuineKem party input = .ok () := by
  refine ⟨fun _ _ _ _ => Initiator.initiate_eq_error_iff hlow,
    fun _ _ _ _ => Responder.refuses_iff hlow,
    fun _ _ _ _ _ h => exists_session_of_initiate hlow h, ?_, ?_⟩
  · intro ephemeral r input
    unfold x3dhBundle
    cases hparse : input.parse parsers genuineKem with
    | none => rfl
    | some bundle =>
      apply expected_of_error
      intro e h
      -- the RNG has answered both times
      obtain h | ⟨_, -, h | ⟨_, -, he, -⟩⟩ := (Initiator.initiate_eq_error_iff hlow).mp h
      · cases h
      · cases h
      · exact he
  · intro input
    unfold x3dhInitialMessage
    cases hparse : input.initiator.parse parsers genuineKem with
    | none => rfl
    | some initiator =>
      apply expected_of_error
      intro e h
      exact ((Responder.refuses_iff hlow).mp h).1

end LowOrder

/-! ## A point of low order among the symbolic ones -/

section Symbolic

open Symbolic (Letter hybrid)

/-- The symbolic primitives, with the all-zero string a point of low order. -/
def lowPrimitives : Primitives Letter Nat :=
  { Symbolic.primitives with
    x25519 := fun own peer => if peer = zeroBytes then zeroBytes else Symbolic.x25519 own peer }

theorem lowOrder_lowPrimitives : LowOrder lowPrimitives {zeroBytes} := by
  intro own peer
  show (if peer = zeroBytes then zeroBytes else Symbolic.primitives.x25519 own peer) = zeroBytes ↔
    peer = zeroBytes
  by_cases hpeer : peer = zeroBytes
  · simp [hpeer]
  · obtain ⟨base, exponents, heq⟩ := Symbolic.x25519_eq own peer
    rw [if_neg hpeer, heq]
    simp only [hpeer, iff_false]
    intro hzero
    have hhead := congrArg Vector.head hzero
    rw [Symbolic.padded_head] at hhead
    cases hhead

/-- An initiator refuses a bundle whose identity is the point of low order; with or without a
    one-time prekey, a responder refuses an ephemeral key that is, and it accepts the same
    identity with another ephemeral key. -/
theorem handshakes_refuse_low_order_symbolic :
    (PartyKeys.generate lowPrimitives hybrid zeroBytes 1 2 3 4).initiator.initiate
      lowPrimitives hybrid ⟨⟨zeroBytes, zeroBytes, hybrid.encapsulationKey 5⟩, basepointBytes, none⟩
      (.ok 6) (.ok 7) = .error .invalidPublicKey ∧
    ∀ withOneTimePrekey,
      ((PartyKeys.generate lowPrimitives hybrid zeroBytes 1 2 3 4).responder
        withOneTimePrekey).respond lowPrimitives hybrid
          ⟨zeroBytes, basepointBytes, hybrid.encapsulationKey 5⟩
          ⟨zeroBytes, (hybrid.encapsulate (hybrid.encapsulationKey 2) 7).1⟩
        = .error .invalidPublicKey ∧
      ∃ key, ((PartyKeys.generate lowPrimitives hybrid zeroBytes 1 2 3 4).responder
        withOneTimePrekey).respond lowPrimitives hybrid
          ⟨zeroBytes, basepointBytes, hybrid.encapsulationKey 5⟩
          ⟨basepointBytes, (hybrid.encapsulate (hybrid.encapsulationKey 2) 7).1⟩ = .ok key := by
  obtain ⟨hinitiator, hresponder, -⟩ := handshakes_refuse_low_order lowOrder_lowPrimitives
    ⟨fun _ => true, fun _ => true⟩ (hybrid.encapsulationKey 5)
    (PartyKeys.generate lowPrimitives hybrid zeroBytes 1 2 3 4)
  refine ⟨(hinitiator _ _ _ _).mpr (.inr ⟨6, rfl, .inr ⟨7, rfl, rfl, zeroBytes, ?_, rfl⟩⟩),
    fun withOneTimePrekey => ⟨(hresponder _ _ _ _).mpr ⟨rfl, .inr rfl⟩, ?_⟩⟩
  · exact List.mem_cons_of_mem _ List.mem_cons_self
  · have hbasepoint : basepointBytes ∉ ({zeroBytes} : Set (PublicKey Letter)) := by
      intro hzero
      have hhead := congrArg Vector.head hzero
      rw [Symbolic.basepoint_first] at hhead
      simp [zeroBytes, Octet.ofByte, Vector.head] at hhead
    -- neither key is of low order, so that no error is possible
    cases hrespond : ((PartyKeys.generate lowPrimitives hybrid zeroBytes 1 2 3 4).responder
        withOneTimePrekey).respond lowPrimitives hybrid
          ⟨zeroBytes, basepointBytes, hybrid.encapsulationKey 5⟩
          ⟨basepointBytes, (hybrid.encapsulate (hybrid.encapsulationKey 2) 7).1⟩ with
    | ok key => exact ⟨key, rfl⟩
    | error e =>
      obtain ⟨-, hlow | hlow⟩ := (hresponder _ _ _ _).mp hrespond
      · exact absurd hlow hbasepoint
      · exact absurd hlow hbasepoint

end Symbolic

end Fuzz

end Quietwire
