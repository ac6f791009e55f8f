/-
  Quietwire.Network.Sessions

  Any number of handshakes and of the sessions started from them, side by side.
  Each session is started from the key that its own side derived, whatever bundle,
  identity or message that side was given, and calls on the sessions come in any
  order, on any frames.

  The log keeps which session used which message key on which frame; no call reads it.
-/
import Quietwire.Network.Ladder
import Quietwire.X3dh.Transcript

namespace Quietwire

open Transaction

/-- Which side of a handshake a session is on, and what that side takes the handshake
    to have been. -/
structure View (α : Type) where
  side : Party
  initiator : IdentityPublic α
  bundle : PrekeyBundle α
  message : InitialMessage α

/-- The other side has the same view. -/
structure View.Matches {α : Type} (v v' : View α) : Prop where
  side : v'.side = v.side.peer
  initiator : v'.initiator = v.initiator
  bundle : v'.bundle = v.bundle
  message : v'.message = v.message

/-- A session and the handshake that it was started from. -/
structure Member (α σ : Type) where
  view : View α
  /-- What its shared key was derived from. -/
  input : KeyInput α
  session : Session α σ

namespace Network

/-- A frame that a session sealed or opened. -/
structure Use (α : Type) where
  member : Nat
  view : View α
  input : KeyInput α
  key : Option (Key α)
  plaintext : Plaintext α
  sealed : SealedFrame α

inductive Record (α : Type) where
  | sealed (use : Use α)
  | opened (use : Use α)

inductive Event (α σ δ ρ : Type) where
  /-- With the outcomes of the draws for the ephemeral key, the encapsulation and the
      ratchet key. -/
  | initiate (initiator : Initiator α σ) (bundle : PrekeyBundle α)
      (generated : Except CryptoError σ) (randomness : Except CryptoError ρ)
      (ratchet : Except CryptoError σ)
  | respond (responder : Responder α σ δ) (claimed : IdentityPublic α)
      (message : InitialMessage α)
  | call (member : Nat) (call : Call α σ)

inductive Reply (α : Type) where
  | initiated (result : Except Error (InitialMessage α))
  | responded (result : Except Error Unit)
  | called (output : Output α)
  | unknownMember

end Network

structure Network (α σ : Type) where
  members : List (Member α σ)
  /-- The frames sealed and opened, newest first. -/
  log : List (Network.Record α)

variable {α σ δ ρ : Type} [DecidableEq α] [Octet α] (P : Primitives α σ)
  (H : HybridPrimitives α δ ρ)

namespace Member

/-- `Initiator::initiate`, and `Session::initiator` with the key. -/
def initiate (initiator : Initiator α σ) (bundle : PrekeyBundle α)
    (generated : Except CryptoError σ) (randomness : Except CryptoError ρ)
    (ratchet : Except CryptoError σ) : Except Error (Member α σ × InitialMessage α) := do
  let ephemeral ← liftCrypto generated
  let randomness ← liftCrypto randomness
  let (key, message) ← liftCrypto (initiator.initiate P H bundle (.ok ephemeral) (.ok randomness))
  let session ← Session.initiator P key bundle.signedPrekey ratchet
  let encapsulation := H.encapsulate bundle.identity.kem randomness
  return ({
    view := { side := .initiator, initiator := initiator.identity, bundle, message }
    input := initiator.keyInput P bundle ephemeral encapsulation
    session }, message)

/-- `Responder::respond`, and `Session::responder` with the key. -/
def respond (responder : Responder α σ δ) (claimed : IdentityPublic α)
    (message : InitialMessage α) : Except Error (Member α σ) := do
  let key ← liftCrypto (responder.respond P H claimed message)
  return {
    view := { side := .responder, initiator := claimed, bundle := responder.bundle P, message }
    input := responder.keyInput P H claimed message
    session := Session.responder key responder.signedPrekey }

end Member

namespace Network

def empty : Network α σ := { members := [], log := [] }

/-- What a call adds to the log. -/
def recordOf (i : Nat) (m : Member α σ) : Call α σ → Output α → Option (Record α)
  | .encrypt _ plaintext, .sealed (.ok sealed) =>
    some (.sealed ⟨i, m.view, m.input, m.session.nextSendingKey P, plaintext, sealed⟩)
  | .decrypt sealed _, .opened (.ok plaintext) =>
    some (.opened ⟨i, m.view, m.input, m.session.messageKeyFor P (Header.parse sealed.frame),
      plaintext, sealed⟩)
  | _, _ => none

def callMember (net : Network α σ) (i : Nat) (call : Call α σ) : Network α σ × Reply α :=
  match net.members[i]? with
  | none => (net, .unknownMember)
  | some m =>
    let (session, output) := m.session.call P call
    ({
      members := net.members.set i { m with session }
      log := (recordOf P i m call output).toList ++ net.log }, .called output)

def step (net : Network α σ) : Event α σ δ ρ → Network α σ × Reply α
  | .initiate initiator bundle generated randomness ratchet =>
    match Member.initiate P H initiator bundle generated randomness ratchet with
    | .error e => (net, .initiated (.error e))
    | .ok (m, message) => ({ net with members := net.members ++ [m] }, .initiated (.ok message))
  | .respond responder claimed message =>
    match Member.respond P H responder claimed message with
    | .error e => (net, .responded (.error e))
    | .ok m => ({ net with members := net.members ++ [m] }, .responded (.ok ()))
  | .call i call => net.callMember P i call

/-- The AEAD opened nothing for a session whose key input is `secret` that was not sealed: a
    frame that opens under a key the session tries was sealed by a session of the network
    under that key, with that nonce and associated data. -/
def Unforged (secret : KeyInput α → Prop) (net : Network α σ) : Event α σ δ ρ → Prop
  | .call i (.decrypt sealed _) => ∀ m, net.members[i]? = some m → secret m.input →
    ∀ key plaintext, m.session.messageKeyFor P (Header.parse sealed.frame) = some key →
      Opens P key sealed plaintext → ∃ use : Use α, .sealed use ∈ net.log ∧ use.key = some key ∧
        use.sealed.nonce = sealed.nonce ∧ use.sealed.aad = sealed.aad ∧
        use.sealed.ciphertext = sealed.ciphertext ∧ use.plaintext = plaintext
  | _ => True

/-- Reached by handshakes and calls on arbitrary input, the AEAD being unforgeable under the
    keys of `secret` inputs. -/
abbrev Reaches (secret : KeyInput α → Prop) : Network α σ → Network α σ → Prop :=
  Machine.Reaches (step P H) (Unforged P secret)

/-- What the keys of the sessions were derived from. -/
def inputs (net : Network α σ) : Set (KeyInput α) := {a | ∃ m ∈ net.members, m.input = a}

end Network

/-! ## Sessions as they start -/

omit [DecidableEq α] in
theorem liftCrypto_eq_ok_iff {β : Type} {result : Except CryptoError β} {b : β} :
    liftCrypto result = .ok b ↔ result = .ok b := by
  cases result with
  | error e => exact ⟨fun h => (nomatch h), fun h => (nomatch h)⟩
  | ok b' => simp only [liftCrypto_ok, Except.ok.injEq]

namespace Member

/-- The keys of a session that has called nothing follow from the shared key of its input,
    and the transcript in the input is that of its view. -/
structure Started (m : Member α σ) : Prop where
  scheduled : ∃ agreed, m.session.Scheduled P (m.input.sharedKey P H) m.view.side agreed []
  transcript : m.input.transcriptBytes
    = transcriptBytes m.view.initiator m.view.bundle m.view.message
  /-- The message of an initiator is its own. -/
  announced : m.view.side = .initiator → ∃ ephemeral key randomness,
    m.view.message = ⟨publicKey P ephemeral, (H.encapsulate key randomness).1⟩

variable {P H}

/-- A session that an initiator started. -/
theorem initiate_eq_ok {initiator : Initiator α σ} {bundle : PrekeyBundle α}
    {generated : Except CryptoError σ} {randomness : Except CryptoError ρ}
    {ratchet : Except CryptoError σ} {m : Member α σ} {message : InitialMessage α}
    (h : initiate P H initiator bundle generated randomness ratchet = .ok (m, message)) :
    ∃ ephemeral drawn own, generated = .ok ephemeral ∧ randomness = .ok drawn ∧
      message = ⟨publicKey P ephemeral, (H.encapsulate bundle.identity.kem drawn).1⟩ ∧
      m.view = ⟨.initiator, initiator.identity, bundle, message⟩ ∧
      m.input = initiator.keyInput P bundle ephemeral (H.encapsulate bundle.identity.kem drawn) ∧
      Session.initiatorWith P (m.input.sharedKey P H) bundle.signedPrekey own
        = .ok m.session := by
  simp only [initiate, except_bind_eq_ok_iff, liftCrypto_eq_ok_iff, Prod.exists] at h
  obtain ⟨ephemeral, hephemeral, drawn, hdrawn, key, message', hinitiate, session, hsession,
    heq⟩ := h
  obtain ⟨-, hmessage, rfl⟩ := Initiator.initiateWith_eq_ok_iff.mp hinitiate
  simp only [Session.initiator, except_bind_eq_ok_iff] at hsession
  obtain ⟨own, -, hsession⟩ := hsession
  obtain ⟨rfl, rfl⟩ := Prod.mk.inj (Except.ok.inj heq)
  exact ⟨ephemeral, drawn, own, hephemeral, hdrawn, hmessage, rfl, rfl, hsession⟩

/-- A session that a responder started. -/
theorem respond_eq_ok {responder : Responder α σ δ} {claimed : IdentityPublic α}
    {message : InitialMessage α} {m : Member α σ}
    (h : respond P H responder claimed message = .ok m) :
    m.view = ⟨.responder, claimed, responder.bundle P, message⟩ ∧
      m.input = responder.keyInput P H claimed message ∧
      m.session = Session.responder (m.input.sharedKey P H) responder.signedPrekey := by
  simp only [respond, except_bind_eq_ok_iff, liftCrypto_eq_ok_iff] at h
  obtain ⟨key, hrespond, heq⟩ := h
  obtain ⟨-, rfl⟩ := Responder.respond_eq_ok_iff.mp hrespond
  obtain rfl := Except.ok.inj heq
  exact ⟨rfl, rfl, rfl⟩

/-- Whether a responder starts a session depends on the agreement key of the initiator only. -/
theorem exists_respond_of_dh {responder : Responder α σ δ} {claimed other : IdentityPublic α}
    {message : InitialMessage α} {m : Member α σ}
    (h : respond P H responder claimed message = .ok m) (hdh : other.dh = claimed.dh) :
    ∃ m', respond P H responder other message = .ok m' := by
  simp only [respond, except_bind_eq_ok_iff, liftCrypto_eq_ok_iff] at h ⊢
  obtain ⟨key, hrespond, -⟩ := h
  obtain ⟨haccepted, -⟩ := Responder.respond_eq_ok_iff.mp hrespond
  have hagreements : responder.agreements other message = responder.agreements claimed message := by
    rw [Responder.agreements, hdh, Responder.agreements]
  exact ⟨_, _, Responder.respond_eq_ok_iff.mpr ⟨by rw [hagreements]; exact haccepted, rfl⟩, rfl⟩

theorem started_initiate {initiator : Initiator α σ} {bundle : PrekeyBundle α}
    {generated : Except CryptoError σ} {randomness : Except CryptoError ρ}
    {ratchet : Except CryptoError σ} {m : Member α σ} {message : InitialMessage α}
    (h : initiate P H initiator bundle generated randomness ratchet = .ok (m, message)) :
    m.Started P H := by
  obtain ⟨ephemeral, drawn, own, -, -, hmessage, hview, hinput, hsession⟩ := initiate_eq_ok h
  refine ⟨⟨[P.x25519 own bundle.signedPrekey], ?_⟩, ?_, fun _ =>
    ⟨ephemeral, bundle.identity.kem, drawn, ?_⟩⟩
  · rw [hview]
    exact (Session.scheduled_initiator hsession).1
  · rw [hview, hinput, hmessage]
    rfl
  · rw [hview]
    exact hmessage

theorem started_respond {responder : Responder α σ δ} {claimed : IdentityPublic α}
    {message : InitialMessage α} {m : Member α σ}
    (h : respond P H responder claimed message = .ok m) : m.Started P H := by
  obtain ⟨hview, hinput, hsession⟩ := respond_eq_ok h
  refine ⟨⟨[], ?_⟩, ?_, fun hside => ?_⟩
  · rw [hview, hsession]
    exact Session.scheduled_responder P _ _
  · rw [hview, hinput]
    rfl
  · rw [hview] at hside
    cases hside

end Member

namespace Network

/-! ## What one event does -/

variable {P H} in
theorem step_initiate {net : Network α σ} {initiator : Initiator α σ} {bundle : PrekeyBundle α}
    {generated : Except CryptoError σ} {randomness : Except CryptoError ρ}
    {ratchet : Except CryptoError σ} {m : Member α σ} {message : InitialMessage α}
    (h : Member.initiate P H initiator bundle generated randomness ratchet = .ok (m, message)) :
    net.step P H (.initiate initiator bundle generated randomness ratchet)
      = ({ net with members := net.members ++ [m] }, .initiated (.ok message)) := by
  simp only [step, h]

variable {P H} in
theorem step_respond {net : Network α σ} {responder : Responder α σ δ}
    {claimed : IdentityPublic α} {message : InitialMessage α} {m : Member α σ}
    (h : Member.respond P H responder claimed message = .ok m) :
    net.step P H (.respond responder claimed message)
      = ({ net with members := net.members ++ [m] }, .responded (.ok ())) := by
  simp only [step, h]

variable {P H} in
theorem step_call {net : Network α σ} {i : Nat} {m : Member α σ} (hm : net.members[i]? = some m)
    (call : Call α σ) : net.step P H (.call i call) = ({
      members := net.members.set i { m with session := (m.session.call P call).1 }
      log := (recordOf P i m call (m.session.call P call).2).toList ++ net.log },
      .called (m.session.call P call).2) := by
  simp only [step, callMember, hm]

/-- Nothing, a session started, a frame sealed or a frame opened. -/
inductive Change (net : Network α σ) : Event α σ δ ρ → Network α σ → Prop
  | nothing {event : Event α σ δ ρ} : Change net event net
  | started {event : Event α σ δ ρ} {m : Member α σ} (starts : m.Started P H) :
      Change net event { net with members := net.members ++ [m] }
  | sealed {i : Nat} {m : Member α σ} {nonce : Nonce α} {plaintext : Plaintext α}
      {sealed : SealedFrame α} {session : Session α σ} {chain : Chain α}
      (member : net.members[i]? = some m)
      (run : Session.Sealed P nonce plaintext m.session sealed session chain) :
      Change net (.call i (.encrypt (some nonce) plaintext)) {
        members := net.members.set i { m with session }
        log := .sealed ⟨i, m.view, m.input, some (kdfChain P chain.key).1, plaintext, sealed⟩
          :: net.log }
  | opened {i : Nat} {m : Member α σ} {sealed : SealedFrame α} {random : Option σ}
      {plaintext : Plaintext α} {key : Key α} {session : Session α σ}
      (member : net.members[i]? = some m)
      (run : Session.Decrypted P m.session sealed (rngFill random) plaintext key session) :
      Change net (.call i (.decrypt sealed random)) {
        members := net.members.set i { m with session }
        log := .opened ⟨i, m.view, m.input, some key, plaintext, sealed⟩ :: net.log }

theorem step_change (net : Network α σ) (event : Event α σ δ ρ) :
    Change P H net event (net.step P H event).1 := by
  cases event with
  | initiate initiator bundle generated randomness ratchet =>
    simp only [step]
    cases hrun : Member.initiate P H initiator bundle generated randomness ratchet with
    | error e => exact .nothing
    | ok result => exact .started (Member.started_initiate hrun)
  | respond responder claimed message =>
    simp only [step]
    cases hrun : Member.respond P H responder claimed message with
    | error e => exact .nothing
    | ok m => exact .started (Member.started_respond hrun)
  | call i call =>
    simp only [step, callMember]
    cases hmember : net.members[i]? with
    | none => exact .nothing
    | some m =>
      have hsame : net.members.set i m = net.members := by
        obtain ⟨hi, rfl⟩ := List.getElem?_eq_some_iff.mp hmember
        exact List.set_getElem_self hi
      have heffect := Session.call_effect (P := P) m.session call
      simp only
      generalize (m.session.call P call).1 = session at heffect ⊢
      generalize (m.session.call P call).2 = output at heffect ⊢
      cases heffect with
      | refusedSealing run =>
        simp only [recordOf, Option.toList_none, List.nil_append, hsame]
        exact .nothing
      | refusedOpening run =>
        simp only [recordOf, Option.toList_none, List.nil_append, hsame]
        exact .nothing
      | @sealed nonce plaintext sealed _ chain run =>
        have hkey : m.session.nextSendingKey P = some (kdfChain P chain.key).1 := by
          rw [Session.nextSendingKey, run.sending]
          rfl
        simp only [recordOf, Option.toList_some, List.cons_append, List.nil_append, hkey]
        exact .sealed hmember run
      | opened run =>
        simp only [recordOf, Option.toList_some, List.cons_append, List.nil_append,
          run.messageKeyFor]
        exact .opened hmember run

end Network

end Quietwire
