/-
  Quietwire.Reference.Vectors

  The tests that read the vectors of the handshake.  They pass on every case that the
  generator can write, not only on the two that are pinned, and they accept no other
  case with the same private keys and the same encapsulation.

  The decoding of the Ed25519 and ML-KEM public keys is left out.
-/
import Quietwire.Reference.Handshake

namespace Quietwire
namespace Reference

variable {α σ δ ρ : Type}

/-! ## The tests -/

/-- `hex_array`, on bytes: `none` is a panic. -/
def byteArray (n : Nat) (bytes : Bytes α) : Option (Vector α n) :=
  if h : bytes.length = n then some ⟨bytes.toArray, by simpa using h⟩ else none

def PartyKeys.identity (party : PartyKeys α) : Option (IdentityPublic α) := do
  return {
    sign := ← byteArray verifyingKeyLen party.signPublic
    dh := ← byteArray publicKeyLen party.dhPublic
    kem := ← byteArray encapsulationKeyLen party.kemPublic }

namespace X3dhCase

variable (case : X3dhCase α)

def bundle : Option (PrekeyBundle α) := do
  return {
    identity := ← case.responder.identity
    signedPrekey := ← byteArray publicKeyLen case.signedPrekeyPublic
    oneTimePrekey := ← case.oneTimePrekeyPublic.mapM (byteArray publicKeyLen) }

def message : Option (InitialMessage α) := do
  return {
    ephemeral := ← byteArray publicKeyLen case.ephemeralPublic
    kemCiphertext := ← byteArray ciphertextLen case.kemCiphertext }

def encapsulation : Option (Ciphertext α × SecretKey α) := do
  return ((← case.message).kemCiphertext, ← byteArray keyLen case.kemShared)

section Tests

variable [DecidableEq α] [Octet α] (P : Primitives α σ) (H : HybridPrimitives α δ ρ)
  (keys : KeyMaterial α σ δ ρ)

/-- `initiator_matches_every_independent_vector`, on one case. -/
def initiatorMatches : Option Bool := do
  let identity ← case.initiator.identity
  let initiator : Initiator α σ :=
    { identity, identityDh := keys.privateKey case.initiator.dhPrivate }
  let bundle ← case.bundle
  let (shared, message) ← (initiator.initiateWith P H bundle
    (keys.privateKey case.ephemeralPrivate) (← case.encapsulation)).toOption
  return decide (message = (← case.message)) &&
    decide ((Quietwire.transcript H identity bundle message).toList = case.transcript) &&
    decide (shared.toList = case.sharedKey)

omit [DecidableEq α] [Octet α] in
def responderKeys (identity : IdentityPublic α) : Responder α σ δ where
  identity
  identityDh := keys.privateKey case.responder.dhPrivate
  kem := keys.kemFromSeed case.responder.kemD case.responder.kemZ
  signedPrekey := keys.privateKey case.signedPrekeyPrivate
  oneTimePrekey := case.oneTimePrekeyPrivate.map keys.privateKey

/-- `responder_matches_every_independent_vector`, on one case. -/
def responderMatches : Option Bool := do
  let responder := case.responderKeys keys (← case.responder.identity)
  let shared ← (responder.respond P H (← case.initiator.identity) (← case.message)).toOption
  return decide (responder.bundle P = (← case.bundle)) && decide (shared.toList = case.sharedKey)

/-- The keys of one party in `vector_private_keys_match_their_public_keys`. -/
def partyMatches (party : PartyKeys α) : Option Bool := do
  let identity ← party.identity
  return decide (publicKey P (keys.privateKey party.dhPrivate) = identity.dh) &&
    decide (H.encapsulationKey (keys.kemFromSeed party.kemD party.kemZ) = identity.kem)

/-- `vector_private_keys_match_their_public_keys`, on one case. -/
def privateKeysMatch : Option Bool := do
  return (← partyMatches P H keys case.initiator) && (← partyMatches P H keys case.responder) &&
    decide (publicKey P (keys.privateKey case.ephemeralPrivate) = (← case.message).ephemeral)

/-- The tests pass on a case. -/
structure Passes : Prop where
  initiatorMatches : case.initiatorMatches P H keys = some true
  responderMatches : case.responderMatches P H keys = some true
  privateKeysMatch : case.privateKeysMatch P H keys = some true

end Tests

end X3dhCase

/-- What no test derives. -/
def PartyKeys.inputs (party : PartyKeys α) : Bytes α × SecretKey α × SecretKey α × SecretKey α :=
  (party.signPublic, party.dhPrivate, party.kemD, party.kemZ)

def X3dhCase.inputs (case : X3dhCase α) :=
  (case.initiator.inputs, case.responder.inputs, case.signedPrekeyPrivate,
    case.oneTimePrekeyPrivate, case.ephemeralPrivate, case.kemCiphertext, case.kemShared)

/-! ## What the tests accept -/

section Tests

variable {P : Primitives α σ} {H : HybridPrimitives α δ ρ} {keys : KeyMaterial α σ δ ρ}

theorem toOption_eq_some_iff {ε β : Type} {result : Except ε β} {value : β} :
    result.toOption = some value ↔ result = .ok value := by
  cases result with
  | error error => simp [Except.toOption]
  | ok value => simp [Except.toOption]

@[simp] theorem byteArray_eq_some_iff {n : Nat} {bytes : Bytes α} {array : Vector α n} :
    byteArray n bytes = some array ↔ bytes = array.toList := by
  unfold byteArray
  constructor
  · intro h
    split at h
    · obtain rfl := Option.some.inj h
      rfl
    · cases h
  · rintro rfl
    rw [dif_pos (by simp)]
    rfl

theorem PartyKeys.identity_eq_some_iff {party : PartyKeys α} {identity : IdentityPublic α} :
    party.identity = some identity ↔ party.signPublic = identity.sign.toList ∧
      party.dhPublic = identity.dh.toList ∧ party.kemPublic = identity.kem.toList := by
  simp only [PartyKeys.identity, Option.bind_eq_bind, Option.bind_eq_some_iff,
    byteArray_eq_some_iff, pure, Option.some.injEq]
  constructor
  · rintro ⟨sign, hsign, dh, hdh, kem, hkem, rfl⟩
    exact ⟨hsign, hdh, hkem⟩
  · rintro ⟨hsign, hdh, hkem⟩
    exact ⟨_, hsign, _, hdh, _, hkem, rfl⟩

namespace X3dhCase

variable {case : X3dhCase α}

theorem message_eq_some_iff {message : InitialMessage α} : case.message = some message ↔
    case.ephemeralPublic = message.ephemeral.toList ∧
      case.kemCiphertext = message.kemCiphertext.toList := by
  simp only [X3dhCase.message, Option.bind_eq_bind, Option.bind_eq_some_iff,
    byteArray_eq_some_iff, pure, Option.some.injEq]
  constructor
  · rintro ⟨ephemeral, hephemeral, kemCiphertext, hkem, rfl⟩
    exact ⟨hephemeral, hkem⟩
  · rintro ⟨hephemeral, hkem⟩
    exact ⟨_, hephemeral, _, hkem, rfl⟩

theorem encapsulation_eq_some_iff {encapsulation : Ciphertext α × SecretKey α} :
    case.encapsulation = some encapsulation ↔
      (∃ message, case.message = some message ∧ message.kemCiphertext = encapsulation.1) ∧
        case.kemShared = encapsulation.2.toList := by
  simp only [X3dhCase.encapsulation, Option.bind_eq_bind, Option.bind_eq_some_iff,
    byteArray_eq_some_iff, pure, Option.some.injEq]
  constructor
  · rintro ⟨message, hmessage, shared, hshared, rfl⟩
    exact ⟨⟨message, hmessage, rfl⟩, hshared⟩
  · rintro ⟨⟨message, hmessage, hciphertext⟩, hshared⟩
    exact ⟨message, hmessage, _, hshared, by rw [hciphertext]⟩

theorem bundle_eq_some_iff {bundle : PrekeyBundle α} : case.bundle = some bundle ↔
    case.responder.identity = some bundle.identity ∧
      case.signedPrekeyPublic = bundle.signedPrekey.toList ∧
      case.oneTimePrekeyPublic = bundle.oneTimePrekey.map Vector.toList := by
  simp only [X3dhCase.bundle, Option.bind_eq_bind, Option.bind_eq_some_iff,
    byteArray_eq_some_iff, pure, Option.some.injEq]
  have hmapM (prekey : Option (PublicKey α)) :
      case.oneTimePrekeyPublic.mapM (byteArray publicKeyLen) = some prekey ↔
        case.oneTimePrekeyPublic = prekey.map Vector.toList := by
    cases case.oneTimePrekeyPublic with
    | none => cases prekey <;> simp
    | some bytes => cases prekey <;> simp
  constructor
  · rintro ⟨identity, hidentity, signedPrekey, hsigned, prekey, hprekey, rfl⟩
    exact ⟨hidentity, hsigned, (hmapM _).mp hprekey⟩
  · rintro ⟨hidentity, hsigned, hprekey⟩
    exact ⟨_, hidentity, _, hsigned, _, (hmapM _).mpr hprekey, rfl⟩

variable [DecidableEq α] [Octet α]

theorem partyMatches_eq_true_iff {party : PartyKeys α} :
    partyMatches P H keys party = some true ↔ ∃ identity, party.identity = some identity ∧
      publicKey P (keys.privateKey party.dhPrivate) = identity.dh ∧
      H.encapsulationKey (keys.kemFromSeed party.kemD party.kemZ) = identity.kem := by
  simp only [partyMatches, Option.bind_eq_bind, Option.bind_eq_some_iff, pure, Option.some.injEq,
    Bool.and_eq_true, decide_eq_true_eq]

theorem initiatorMatches_eq_true_iff : case.initiatorMatches P H keys = some true ↔
    ∃ identity bundle encapsulation key message, case.initiator.identity = some identity ∧
      case.bundle = some bundle ∧ case.encapsulation = some encapsulation ∧
      case.message = some message ∧
      (Initiator.mk identity (keys.privateKey case.initiator.dhPrivate)).initiateWith P H bundle
        (keys.privateKey case.ephemeralPrivate) encapsulation = .ok (key, message) ∧
      (Quietwire.transcript H identity bundle message).toList = case.transcript ∧
      key.toList = case.sharedKey := by
  simp only [initiatorMatches, Option.bind_eq_bind, Option.bind_eq_some_iff, pure,
    Option.some.injEq, Bool.and_eq_true, decide_eq_true_eq, toOption_eq_some_iff]
  constructor
  · rintro ⟨identity, hidentity, bundle, hbundle, encapsulation, hencapsulation, ⟨key, message⟩,
      hinitiate, _, hmessage, ⟨rfl, htranscript⟩, hkey⟩
    exact ⟨identity, bundle, encapsulation, key, message, hidentity, hbundle, hencapsulation,
      hmessage, hinitiate, htranscript, hkey⟩
  · rintro ⟨identity, bundle, encapsulation, key, message, hidentity, hbundle, hencapsulation,
      hmessage, hinitiate, htranscript, hkey⟩
    exact ⟨identity, hidentity, bundle, hbundle, encapsulation, hencapsulation, (key, message),
      hinitiate, message, hmessage, ⟨rfl, htranscript⟩, hkey⟩

theorem responderMatches_eq_true_iff : case.responderMatches P H keys = some true ↔
    ∃ identity initiator message bundle key, case.responder.identity = some identity ∧
      case.initiator.identity = some initiator ∧ case.message = some message ∧
      case.bundle = some bundle ∧
      (case.responderKeys keys identity).respond P H initiator message = .ok key ∧
      bundle = (case.responderKeys keys identity).bundle P ∧ key.toList = case.sharedKey := by
  simp only [responderMatches, Option.bind_eq_bind, Option.bind_eq_some_iff, pure,
    Option.some.injEq, Bool.and_eq_true, decide_eq_true_eq, toOption_eq_some_iff]
  constructor
  · rintro ⟨identity, hidentity, initiator, hinitiator, message, hmessage, key, hrespond, bundle,
      hbundle, heq, hkey⟩
    exact ⟨identity, initiator, message, bundle, key, hidentity, hinitiator, hmessage, hbundle,
      hrespond, heq.symm, hkey⟩
  · rintro ⟨identity, initiator, message, bundle, key, hidentity, hinitiator, hmessage, hbundle,
      hrespond, heq, hkey⟩
    exact ⟨identity, hidentity, initiator, hinitiator, message, hmessage, key, hrespond, bundle,
      hbundle, heq.symm, hkey⟩

theorem privateKeysMatch_eq_true_iff : case.privateKeysMatch P H keys = some true ↔
    partyMatches P H keys case.initiator = some true ∧
    partyMatches P H keys case.responder = some true ∧
    ∃ message, case.message = some message ∧
      publicKey P (keys.privateKey case.ephemeralPrivate) = message.ephemeral := by
  simp only [privateKeysMatch, Option.bind_eq_bind, Option.bind_eq_some_iff, pure,
    Option.some.injEq, Bool.and_eq_true, decide_eq_true_eq]
  constructor
  · rintro ⟨_, hinitiator, _, hresponder, message, hmessage, ⟨rfl, rfl⟩, hephemeral⟩
    exact ⟨hinitiator, hresponder, message, hmessage, hephemeral⟩
  · rintro ⟨hinitiator, hresponder, message, hmessage, hephemeral⟩
    exact ⟨true, hinitiator, true, hresponder, message, hmessage, ⟨rfl, rfl⟩, hephemeral⟩

end X3dhCase

/-! ## A written case passes -/

variable [DecidableEq α] [Octet α] {secret : String → SecretKey α} {name : String}
  {withOneTimePrekey : Bool} {case case' : X3dhCase α}

omit [DecidableEq α] in
theorem identity_identity (party : String) :
    (identity P H keys secret party).identity = some (genuineIdentity P H keys secret party) :=
  PartyKeys.identity_eq_some_iff.mpr ⟨rfl, rfl, rfl⟩

omit [DecidableEq α] in
theorem writtenCase_message : (writtenCase P H keys secret name withOneTimePrekey).message
    = some (sent P H keys secret name withOneTimePrekey) :=
  X3dhCase.message_eq_some_iff.mpr ⟨rfl, rfl⟩

omit [DecidableEq α] in
theorem writtenCase_encapsulation :
    (writtenCase P H keys secret name withOneTimePrekey).encapsulation
      = some (encapsulated P H keys secret name withOneTimePrekey) :=
  X3dhCase.encapsulation_eq_some_iff.mpr ⟨⟨_, writtenCase_message, rfl⟩, rfl⟩

omit [DecidableEq α] in
theorem writtenCase_bundle : (writtenCase P H keys secret name withOneTimePrekey).bundle
    = some ((bob P H keys secret name withOneTimePrekey).bundle P) :=
  X3dhCase.bundle_eq_some_iff.mpr ⟨identity_identity _, rfl, rfl⟩

theorem partyMatches_identity (party : String) :
    X3dhCase.partyMatches P H keys (identity P H keys secret party) = some true :=
  X3dhCase.partyMatches_eq_true_iff.mpr ⟨_, identity_identity party, rfl, rfl⟩

omit [DecidableEq α] in
/-- The responder of the test is the one that the generator has in mind. -/
theorem writtenCase_responderKeys :
    (writtenCase P H keys secret name withOneTimePrekey).responderKeys keys
        (genuineIdentity P H keys secret (name ++ " bob"))
      = bob P H keys secret name withOneTimePrekey := by
  cases withOneTimePrekey with
  | false => rfl
  | true => rfl

/-- The responder makes the agreements of the initiator, so it stops at none of them. -/
theorem passes_writtenCase
    (commutes : ∀ a b, P.x25519 a (publicKey P b) = P.x25519 b (publicKey P a))
    (kem : CorrectKem H)
    (hnonzero : ∀ pair ∈ (alice P H keys secret name).agreements
        ((bob P H keys secret name withOneTimePrekey).bundle P) (ephemeral keys secret name),
      agreed P pair ≠ zeroBytes) :
    (writtenCase P H keys secret name withOneTimePrekey).Passes P H keys := by
  have honest : (alice P H keys secret name).Honest P := rfl
  have honest' : (bob P H keys secret name withOneTimePrekey).Honest P H := ⟨rfl, rfl⟩
  constructor
  · have hinitiate := (Initiator.initiateWith_eq_ok_iff (H := H)).mpr
      ⟨hnonzero, (rfl : sent P H keys secret name withOneTimePrekey = _), rfl⟩
    exact X3dhCase.initiatorMatches_eq_true_iff.mpr ⟨_, _, _, _, _, identity_identity _,
      writtenCase_bundle, writtenCase_encapsulation, writtenCase_message, hinitiate, rfl, rfl⟩
  · have hagreed := (agreementsMatch honest honest' (ephemeral keys secret name)
      (encapsulated P H keys secret name withOneTimePrekey).1).agreed_eq commutes
    have hnonzero' : ∀ pair ∈ (bob P H keys secret name withOneTimePrekey).agreements
        (alice P H keys secret name).identity (sent P H keys secret name withOneTimePrekey),
        agreed P pair ≠ zeroBytes := by
      intro pair hpair
      have hshared := List.mem_map_of_mem (f := agreed P) hpair
      rw [sent, ← hagreed] at hshared
      obtain ⟨ours, hours, heq⟩ := List.mem_map.mp hshared
      rw [← heq]
      exact hnonzero ours hours
    have hrespond := (Responder.respond_eq_ok_iff (H := H)).mpr ⟨hnonzero', rfl⟩
    have hkey := congrArg (fun input => (input.sharedKey P H).toList)
      (keyInput_eq commutes kem honest honest' (ephemeral keys secret name)
        (keys.kemRandomness (secret (name ++ " alice kem randomness"))))
    rw [X3dhCase.responderMatches_eq_true_iff]
    refine ⟨_, _, _, _, _, identity_identity _, identity_identity _, writtenCase_message,
      writtenCase_bundle, ?_, ?_, hkey.symm⟩
    · rw [writtenCase_responderKeys]
      exact hrespond
    · rw [writtenCase_responderKeys]
  · exact X3dhCase.privateKeysMatch_eq_true_iff.mpr ⟨partyMatches_identity _,
      partyMatches_identity _, _, writtenCase_message, rfl⟩

/-! ## No other case passes -/

theorem PartyKeys.eq_of_inputs {party party' : PartyKeys α}
    (h : X3dhCase.partyMatches P H keys party = some true)
    (h' : X3dhCase.partyMatches P H keys party' = some true)
    (hinputs : party.inputs = party'.inputs) : party = party' := by
  obtain ⟨identity, hidentity, hdh, hkem⟩ := X3dhCase.partyMatches_eq_true_iff.mp h
  obtain ⟨identity', hidentity', hdh', hkem'⟩ := X3dhCase.partyMatches_eq_true_iff.mp h'
  obtain ⟨-, hdhPublic, hkemPublic⟩ := PartyKeys.identity_eq_some_iff.mp hidentity
  obtain ⟨-, hdhPublic', hkemPublic'⟩ := PartyKeys.identity_eq_some_iff.mp hidentity'
  rw [← hdh] at hdhPublic
  rw [← hdh'] at hdhPublic'
  rw [← hkem] at hkemPublic
  rw [← hkem'] at hkemPublic'
  simp only [PartyKeys.inputs, Prod.mk.injEq] at hinputs
  obtain ⟨hsign, hprivate, hd, hz⟩ := hinputs
  rw [hprivate, ← hdhPublic'] at hdhPublic
  rw [hd, hz, ← hkemPublic'] at hkemPublic
  cases party
  cases party'
  congr

/-- The public keys of a passing case are those of its private keys. -/
theorem X3dhCase.Passes.public_eq (h : case.Passes P H keys) (h' : case'.Passes P H keys)
    (hinputs : case.inputs = case'.inputs) :
    case.initiator = case'.initiator ∧ case.responder = case'.responder ∧
      case.signedPrekeyPublic = case'.signedPrekeyPublic ∧
      case.oneTimePrekeyPublic = case'.oneTimePrekeyPublic ∧
      case.ephemeralPublic = case'.ephemeralPublic := by
  simp only [X3dhCase.inputs, Prod.mk.injEq] at hinputs
  obtain ⟨hini, hres, hsigned, hprekey, hephemeral, -⟩ := hinputs
  obtain ⟨hinitiator, hresponder, message, hmessage, hpublic⟩ :=
    X3dhCase.privateKeysMatch_eq_true_iff.mp h.privateKeysMatch
  obtain ⟨hinitiator', hresponder', message', hmessage', hpublic'⟩ :=
    X3dhCase.privateKeysMatch_eq_true_iff.mp h'.privateKeysMatch
  refine ⟨PartyKeys.eq_of_inputs hinitiator hinitiator' hini,
    PartyKeys.eq_of_inputs hresponder hresponder' hres, ?_⟩
  -- the test of the responder compares the prekeys, as its bundle
  obtain ⟨identity, -, -, bundle, -, -, -, -, hbundle, -, rfl, -⟩ :=
    X3dhCase.responderMatches_eq_true_iff.mp h.responderMatches
  obtain ⟨identity', -, -, bundle', -, -, -, -, hbundle', -, rfl, -⟩ :=
    X3dhCase.responderMatches_eq_true_iff.mp h'.responderMatches
  obtain ⟨-, hsignedPublic, hprekeyPublic⟩ := bundle_eq_some_iff.mp hbundle
  obtain ⟨-, hsignedPublic', hprekeyPublic'⟩ := bundle_eq_some_iff.mp hbundle'
  refine ⟨?_, ?_, ?_⟩
  · rw [hsignedPublic, hsignedPublic', Responder.bundle, Responder.bundle, responderKeys,
      responderKeys, hsigned]
  · rw [hprekeyPublic, hprekeyPublic', Responder.bundle, Responder.bundle, responderKeys,
      responderKeys, hprekey]
  · rw [(message_eq_some_iff.mp hmessage).1, (message_eq_some_iff.mp hmessage').1, ← hpublic,
      ← hpublic', hephemeral]

/-- What the tests compare they also derive, so none of it can change. -/
theorem X3dhCase.Passes.eq_of_inputs (h : case.Passes P H keys) (h' : case'.Passes P H keys)
    (hinputs : case.inputs = case'.inputs) : case = case' := by
  obtain ⟨hinitiator, hresponder, hsignedPublic, hprekeyPublic, hephemeralPublic⟩ :=
    h.public_eq h' hinputs
  simp only [X3dhCase.inputs, Prod.mk.injEq] at hinputs
  obtain ⟨-, -, hsigned, hprekey, hephemeral, hciphertext, hshared⟩ := hinputs
  have hmessages : case.message = case'.message := by
    rw [X3dhCase.message, X3dhCase.message, hephemeralPublic, hciphertext]
  have hbundles : case.bundle = case'.bundle := by
    rw [X3dhCase.bundle, X3dhCase.bundle, hresponder, hsignedPublic, hprekeyPublic]
  have hencapsulations : case.encapsulation = case'.encapsulation := by
    rw [X3dhCase.encapsulation, X3dhCase.encapsulation, hmessages, hshared]
  -- the initiator then computes one transcript and one key for both
  obtain ⟨identity, bundle, encapsulation, key, message, hidentity, hbundle, hencapsulation,
    -, hinitiate, htranscript, hkey⟩ :=
    X3dhCase.initiatorMatches_eq_true_iff.mp h.initiatorMatches
  obtain ⟨identity', bundle', encapsulation', key', message', hidentity', hbundle',
    hencapsulation', -, hinitiate', htranscript', hkey'⟩ :=
    X3dhCase.initiatorMatches_eq_true_iff.mp h'.initiatorMatches
  rw [hinitiator, hidentity'] at hidentity
  rw [hbundles, hbundle'] at hbundle
  rw [hencapsulations, hencapsulation'] at hencapsulation
  obtain rfl := Option.some.inj hidentity
  obtain rfl := Option.some.inj hbundle
  obtain rfl := Option.some.inj hencapsulation
  rw [hinitiator, hephemeral, hinitiate'] at hinitiate
  obtain ⟨rfl, rfl⟩ := Prod.mk.inj (Except.ok.inj hinitiate)
  have htranscripts : case.transcript = case'.transcript := htranscript.symm.trans htranscript'
  have hkeys : case.sharedKey = case'.sharedKey := hkey.symm.trans hkey'
  cases case
  cases case'
  congr

/-- The tests of the handshake pass on every vector that the generator writes, whatever
    secrets it draws; it writes one exactly when the initiator can start a session; and they
    pass on no other case with the same private keys and the same encapsulation. -/
theorem handshake_vectors_hold (standard : StandardHkdf P)
    (commutes : ∀ a b, P.x25519 a (publicKey P b) = P.x25519 b (publicKey P a))
    (kem : CorrectKem H) (keys : KeyMaterial α σ δ ρ) (secret : String → SecretKey α)
    (name : String) (withOneTimePrekey : Bool) :
    ((∃ case, x3dhCase P H keys secret name withOneTimePrekey = .ok case) ↔
      ∃ key message, (alice P H keys secret name).initiateWith P H
        ((bob P H keys secret name withOneTimePrekey).bundle P) (ephemeral keys secret name)
        (encapsulated P H keys secret name withOneTimePrekey) = .ok (key, message)) ∧
    ∀ case, x3dhCase P H keys secret name withOneTimePrekey = .ok case →
      case.Passes P H keys ∧
      ∀ case', case'.inputs = case.inputs → case'.Passes P H keys → case' = case := by
  constructor
  · constructor
    · rintro ⟨case, hcase⟩
      obtain ⟨hnonzero, -⟩ := (x3dhCase_eq_ok_iff standard).mp hcase
      exact ⟨_, _, Initiator.initiateWith_eq_ok_iff.mpr ⟨hnonzero, rfl, rfl⟩⟩
    · rintro ⟨key, message, hinitiate⟩
      obtain ⟨hnonzero, -⟩ := Initiator.initiateWith_eq_ok_iff.mp hinitiate
      exact ⟨_, (x3dhCase_eq_ok_iff standard).mpr ⟨hnonzero, rfl⟩⟩
  · intro case hcase
    obtain ⟨hnonzero, rfl⟩ := (x3dhCase_eq_ok_iff standard).mp hcase
    have hpasses := passes_writtenCase commutes kem hnonzero
    refine ⟨hpasses, ?_⟩
    intro case' hinputs hpasses'
    exact hpasses'.eq_of_inputs hpasses hinputs

end Tests

/-- The libraries, over letters. -/
def symbolicKeys : KeyMaterial Symbolic.Letter Nat Nat Nat where
  privateKey bytes := Symbolic.code bytes.toList
  ed25519Public seed := Symbolic.padded verifyingKeyLen (.digest 1 (Symbolic.code seed.toList))
  kemFromSeed d z := Nat.pair (Symbolic.code d.toList) (Symbolic.code z.toList)
  kemRandomness bytes := Symbolic.code bytes.toList

def symbolicSecret (label : String) : SecretKey Symbolic.Letter :=
  Symbolic.padded keyLen (.digest 0 (Symbolic.code (asciiBytes label)))

/-- The pinned case with a one-time prekey passes, and it fails with any other shared key. -/
theorem handshake_vectors_hold_symbolic : ∃ case,
    x3dhCase Symbolic.primitives Symbolic.hybrid symbolicKeys symbolicSecret
      "with one-time prekey" true = .ok case ∧
    case.Passes Symbolic.primitives Symbolic.hybrid symbolicKeys ∧
    ∀ sharedKey, sharedKey ≠ case.sharedKey →
      ¬ X3dhCase.Passes { case with sharedKey } Symbolic.primitives Symbolic.hybrid
        symbolicKeys := by
  have standard : StandardHkdf Symbolic.primitives := fun _ _ _ _ _ => rfl
  obtain ⟨hwritten, hholds⟩ := handshake_vectors_hold standard Symbolic.correct.commutes
    Symbolic.correctKem symbolicKeys symbolicSecret "with one-time prekey" true
  have honest : (alice Symbolic.primitives Symbolic.hybrid symbolicKeys symbolicSecret
    "with one-time prekey").Honest Symbolic.primitives := rfl
  have honest' : (bob Symbolic.primitives Symbolic.hybrid symbolicKeys symbolicSecret
    "with one-time prekey" true).Honest Symbolic.primitives Symbolic.hybrid := ⟨rfl, rfl⟩
  obtain ⟨hnonzero, -⟩ := (agreementsMatch honest honest' _
    (Vector.replicate ciphertextLen (.byte 0))).ne_zero
    Symbolic.correct.contributory
  obtain ⟨case, hcase⟩ := hwritten.mpr
    ⟨_, _, Initiator.initiateWith_eq_ok_iff.mpr ⟨hnonzero, rfl, rfl⟩⟩
  obtain ⟨hpasses, hpinned⟩ := hholds case hcase
  refine ⟨case, hcase, hpasses, ?_⟩
  intro sharedKey hne hother
  exact hne (congrArg X3dhCase.sharedKey (hpinned { case with sharedKey } rfl hother))

end Reference
end Quietwire
