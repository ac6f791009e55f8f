/-
  Quietwire.Reference.Handshake

  The independent reference of the handshake, `x3dh_case` of `generate.py`: what it
  writes is what the two parties of this program hold, and it writes a case exactly
  when no agreement gives the all-zero secret.

  Fields are byte strings: the hex digits and the JSON around them are left out.
-/
import Quietwire.Reference.Bytes
import Quietwire.X3dh.Agreement

namespace Quietwire
namespace Reference

variable {α σ δ ρ : Type}

/-- The keys that the libraries make of 32 secret bytes. -/
structure KeyMaterial (α σ δ ρ : Type) where
  /-- `X25519PrivateKey.from_private_bytes`. -/
  privateKey : SecretKey α → σ
  /-- The public key of `Ed25519PrivateKey.from_private_bytes`. -/
  ed25519Public : SecretKey α → VerifyingKey α
  /-- The key that `ML_KEM_768._keygen_internal` makes of `d` and `z`. -/
  kemFromSeed : SecretKey α → SecretKey α → δ
  kemRandomness : SecretKey α → ρ

/-- What `identity` returns. -/
structure PartyKeys (α : Type) where
  signPublic : Bytes α
  dhPrivate : SecretKey α
  dhPublic : Bytes α
  kemD : SecretKey α
  kemZ : SecretKey α
  kemPublic : Bytes α

/-- What `x3dh_case` returns. -/
structure X3dhCase (α : Type) where
  initiator : PartyKeys α
  responder : PartyKeys α
  signedPrekeyPrivate : SecretKey α
  signedPrekeyPublic : Bytes α
  oneTimePrekeyPrivate : Option (SecretKey α)
  oneTimePrekeyPublic : Option (Bytes α)
  ephemeralPrivate : SecretKey α
  ephemeralPublic : Bytes α
  kemCiphertext : Bytes α
  kemShared : Bytes α
  transcript : Bytes α
  sharedKey : Bytes α

/-! ## The generator -/

section Generator

variable [DecidableEq α] [Octet α] (P : Primitives α σ) (H : HybridPrimitives α δ ρ)
  (keys : KeyMaterial α σ δ ρ) (secret : String → SecretKey α)

omit [DecidableEq α] in
def identity (party : String) : PartyKeys α where
  signPublic := (keys.ed25519Public (secret (party ++ " identity sign"))).toList
  dhPrivate := secret (party ++ " identity dh")
  dhPublic := x25519Public P (keys.privateKey (secret (party ++ " identity dh")))
  kemD := secret (party ++ " kem d")
  kemZ := secret (party ++ " kem z")
  kemPublic := (H.encapsulationKey
    (keys.kemFromSeed (secret (party ++ " kem d")) (secret (party ++ " kem z")))).toList

omit [DecidableEq α] [Octet α] in
def publicIdentity (keys : PartyKeys α) : Bytes α :=
  keys.signPublic ++ keys.dhPublic ++ keys.kemPublic

omit [DecidableEq α] [Octet α] in
/-- `ML_KEM_768._encaps_internal`, which takes a key of the right length. -/
def encaps (key : Bytes α) (randomness : ρ) : Except Exception (SecretKey α × Ciphertext α) :=
  if h : key.length = encapsulationKeyLen then
    let (ciphertext, shared) := H.encapsulate ⟨key.toArray, by simpa using h⟩ randomness
    .ok (shared, ciphertext)
  else .error .valueError

def x3dhCase (name : String) (withOneTimePrekey : Bool) : Except Exception (X3dhCase α) := do
  let alice := identity P H keys secret (name ++ " alice")
  let bob := identity P H keys secret (name ++ " bob")
  let signedPrekey := secret (name ++ " bob signed prekey")
  let oneTimePrekey :=
    if withOneTimePrekey then some (secret (name ++ " bob one-time prekey")) else none
  let ephemeral := secret (name ++ " alice ephemeral")
  let kemRandomness := secret (name ++ " alice kem randomness")
  let (kemShared, kemCiphertext) ← encaps H bob.kemPublic (keys.kemRandomness kemRandomness)
  let spkPublic := x25519Public P (keys.privateKey signedPrekey)
  let opkPublic := match oneTimePrekey with
    | some key => x25519Public P (keys.privateKey key)
    | none => []
  let ephemeralPublic := x25519Public P (keys.privateKey ephemeral)
  let mut agreements := [
    ← x25519 P (keys.privateKey alice.dhPrivate) spkPublic,
    ← x25519 P (keys.privateKey ephemeral) bob.dhPublic,
    ← x25519 P (keys.privateKey ephemeral) spkPublic]
  if oneTimePrekey.isSome then
    agreements := agreements ++ [← x25519 P (keys.privateKey ephemeral) opkPublic]
  let transcript := (H.deriveKey (asciiBytes "QUIETWIRE-X3DH-TRANSCRIPT-v1")
    (publicIdentity alice ++ publicIdentity bob ++ ephemeralPublic ++ spkPublic ++ opkPublic
      ++ kemCiphertext.toList)).toList
  let ikm := List.replicate 32 (Octet.ofByte 0xff) ++ agreements.flatten ++ kemShared.toList
  let sharedKey ← hkdfSha512 P ikm transcript (asciiBytes "QUIETWIRE-X3DH-HYBRID-v1") 32
  return {
    initiator := alice
    responder := bob
    signedPrekeyPrivate := signedPrekey
    signedPrekeyPublic := spkPublic
    oneTimePrekeyPrivate := oneTimePrekey
    oneTimePrekeyPublic := oneTimePrekey.map fun _ => opkPublic
    ephemeralPrivate := ephemeral
    ephemeralPublic
    kemCiphertext := kemCiphertext.toList
    kemShared := kemShared.toList
    transcript
    sharedKey }

end Generator

/-! ## The parties behind a case -/

section Parties

variable [Octet α] (P : Primitives α σ) (H : HybridPrimitives α δ ρ)
  (keys : KeyMaterial α σ δ ρ) (secret : String → SecretKey α)

def genuineIdentity (party : String) : IdentityPublic α where
  sign := keys.ed25519Public (secret (party ++ " identity sign"))
  dh := publicKey P (keys.privateKey (secret (party ++ " identity dh")))
  kem := H.encapsulationKey
    (keys.kemFromSeed (secret (party ++ " kem d")) (secret (party ++ " kem z")))

def alice (name : String) : Initiator α σ where
  identity := genuineIdentity P H keys secret (name ++ " alice")
  identityDh := keys.privateKey (secret (name ++ " alice" ++ " identity dh"))

def bob (name : String) (withOneTimePrekey : Bool) : Responder α σ δ where
  identity := genuineIdentity P H keys secret (name ++ " bob")
  identityDh := keys.privateKey (secret (name ++ " bob" ++ " identity dh"))
  kem := keys.kemFromSeed (secret (name ++ " bob" ++ " kem d"))
    (secret (name ++ " bob" ++ " kem z"))
  signedPrekey := keys.privateKey (secret (name ++ " bob signed prekey"))
  oneTimePrekey :=
    if withOneTimePrekey then some (keys.privateKey (secret (name ++ " bob one-time prekey")))
    else none

omit [Octet α] in
def ephemeral (name : String) : σ := keys.privateKey (secret (name ++ " alice ephemeral"))

def encapsulated (name : String) (withOneTimePrekey : Bool) : Ciphertext α × SecretKey α :=
  H.encapsulate (bob P H keys secret name withOneTimePrekey).identity.kem
    (keys.kemRandomness (secret (name ++ " alice kem randomness")))

/-- What the initiator sends. -/
def sent (name : String) (withOneTimePrekey : Bool) : InitialMessage α where
  ephemeral := publicKey P (ephemeral keys secret name)
  kemCiphertext := (encapsulated P H keys secret name withOneTimePrekey).1

/-- The case that the generator writes for them. -/
def writtenCase (name : String) (withOneTimePrekey : Bool) : X3dhCase α :=
  let bundle := (bob P H keys secret name withOneTimePrekey).bundle P
  { initiator := identity P H keys secret (name ++ " alice")
    responder := identity P H keys secret (name ++ " bob")
    signedPrekeyPrivate := secret (name ++ " bob signed prekey")
    signedPrekeyPublic := bundle.signedPrekey.toList
    oneTimePrekeyPrivate :=
      if withOneTimePrekey then some (secret (name ++ " bob one-time prekey")) else none
    oneTimePrekeyPublic := bundle.oneTimePrekey.map Vector.toList
    ephemeralPrivate := secret (name ++ " alice ephemeral")
    ephemeralPublic := (publicKey P (ephemeral keys secret name)).toList
    kemCiphertext := (encapsulated P H keys secret name withOneTimePrekey).1.toList
    kemShared := (encapsulated P H keys secret name withOneTimePrekey).2.toList
    transcript := (Quietwire.transcript H (alice P H keys secret name).identity bundle
      (sent P H keys secret name withOneTimePrekey)).toList
    sharedKey := (((alice P H keys secret name).keyInput P bundle (ephemeral keys secret name)
      (encapsulated P H keys secret name withOneTimePrekey)).sharedKey P H).toList }

end Parties

/-! ## What the generator writes -/

section Written

variable [Octet α] [DecidableEq α] {P : Primitives α σ} {H : HybridPrimitives α δ ρ}
  {keys : KeyMaterial α σ δ ρ} {secret : String → SecretKey α} {name : String}
  {withOneTimePrekey : Bool} {case : X3dhCase α}

omit [DecidableEq α] [Octet α] in
theorem encaps_toList (key : EncapsulationKey α) (randomness : ρ) :
    encaps H key.toList randomness
      = .ok ((H.encapsulate key randomness).2, (H.encapsulate key randomness).1) := by
  rw [encaps, dif_pos (by simp)]
  rfl

/-- A computation goes on after an agreement exactly when the secret is not all zero. -/
theorem x25519_bind_eq_ok_iff {β : Type} {own : σ} {peer : PublicKey α}
    {next : Bytes α → Except Exception β} {result : β} :
    (x25519 P own peer.toList >>= next) = .ok result ↔
      P.x25519 own peer ≠ zeroBytes ∧ next (P.x25519 own peer).toList = .ok result := by
  have hpeer : (⟨peer.toList.toArray, by simp⟩ : Vector α publicKeyLen) = peer := rfl
  rw [x25519, dif_pos (by simp), hpeer]
  by_cases hzero : P.x25519 own peer = zeroBytes
  · simp [hzero, bind, Except.bind]
  · simp [hzero, bind, Except.bind]

/-- A computation goes on after what succeeds. -/
theorem ok_bind {β γ : Type} (value : β) (next : β → Except Exception γ) :
    (Except.ok value >>= next) = next value := rfl

omit [DecidableEq α] in
theorem publicIdentity_identity (party : String) :
    publicIdentity (identity P H keys secret party)
      = (genuineIdentity P H keys secret party).toBytes := by
  simp [publicIdentity, identity, genuineIdentity, IdentityPublic.toBytes, x25519Public]

omit [DecidableEq α] [Octet α] in
/-- Both programs put the same bytes into the transcript. -/
theorem transcriptBytes_eq (initiator : IdentityPublic α) (bundle : PrekeyBundle α)
    (message : InitialMessage α) : transcriptBytes initiator bundle message =
      initiator.toBytes ++ bundle.identity.toBytes ++ message.ephemeral.toList
        ++ bundle.signedPrekey.toList ++ (bundle.oneTimePrekey.map Vector.toList).getD []
        ++ message.kemCiphertext.toList := by
  simp [transcriptBytes]

omit [DecidableEq α] in
/-- Both programs extract from the same bytes. -/
theorem keyMaterial_append (agreements : List (SecretKey α)) (shared : SecretKey α) :
    keyMaterial (agreements ++ [shared]) =
      List.replicate 32 (Octet.ofByte 0xff) ++ (agreements.map Vector.toList).flatten
        ++ shared.toList := by
  simp [keyMaterial, curve25519Prefix]

/-- The generator writes a case when no agreement gives the all-zero secret. -/
theorem x3dhCase_eq_ok_iff (standard : StandardHkdf P) :
    x3dhCase P H keys secret name withOneTimePrekey = .ok case ↔
      (∀ pair ∈ (alice P H keys secret name).agreements
          ((bob P H keys secret name withOneTimePrekey).bundle P) (ephemeral keys secret name),
        agreed P pair ≠ zeroBytes) ∧
      case = writtenCase P H keys secret name withOneTimePrekey := by
  have hdh (party : String) : (identity P H keys secret party).dhPublic
      = (genuineIdentity P H keys secret party).dh.toList := rfl
  have hkem (party : String) : (identity P H keys secret party).kemPublic
      = (genuineIdentity P H keys secret party).kem.toList := rfl
  have hhkdf (ikm salt info : List α) := hkdfSha512_of_le standard ikm salt info
    (by decide : 0 < 32) (by decide)
  have hmaterial := keyMaterial_append (((alice P H keys secret name).agreements
    ((bob P H keys secret name withOneTimePrekey).bundle P) (ephemeral keys secret name)).map
      (agreed P)) (encapsulated P H keys secret name withOneTimePrekey).2
  have hbytes := transcriptBytes_eq (alice P H keys secret name).identity
    ((bob P H keys secret name withOneTimePrekey).bundle P)
    (sent P H keys secret name withOneTimePrekey)
  have hwritten : writtenCase P H keys secret name withOneTimePrekey = _ :=
    congrArg₂ (fun bytes material => { writtenCase P H keys secret name withOneTimePrekey with
      transcript := (H.deriveKey transcriptContext bytes).toList
      sharedKey := (P.hkdf material (H.deriveKey transcriptContext bytes).toList hybridInfo
        sharedKeyLen).toList }) hbytes hmaterial
  rw [hwritten]
  -- three agreements, or four with a one-time prekey
  cases withOneTimePrekey with
  | false =>
    simp only [x3dhCase, hdh, hkem, encaps_toList, x25519Public, x25519_bind_eq_ok_iff, ok_bind,
      Option.isSome_none, Bool.false_eq_true, if_false, hhkdf, publicIdentity_identity]
    constructor
    · rintro ⟨hone, htwo, hthree, heq⟩
      refine ⟨List.forall_mem_cons.mpr ⟨hone, List.forall_mem_cons.mpr ⟨htwo,
        List.forall_mem_cons.mpr ⟨hthree, nofun⟩⟩⟩, ?_⟩
      exact (Except.ok.inj heq).symm
    · rintro ⟨hall, rfl⟩
      obtain ⟨hone, hall⟩ := List.forall_mem_cons.mp hall
      obtain ⟨htwo, hall⟩ := List.forall_mem_cons.mp hall
      obtain ⟨hthree, -⟩ := List.forall_mem_cons.mp hall
      exact ⟨hone, htwo, hthree, rfl⟩
  | true =>
    simp only [x3dhCase, hdh, hkem, encaps_toList, x25519Public, x25519_bind_eq_ok_iff, ok_bind,
      Option.isSome_some, if_true, hhkdf, publicIdentity_identity]
    constructor
    · rintro ⟨hone, htwo, hthree, hfour, heq⟩
      refine ⟨List.forall_mem_cons.mpr ⟨hone, List.forall_mem_cons.mpr ⟨htwo,
        List.forall_mem_cons.mpr ⟨hthree, List.forall_mem_cons.mpr ⟨hfour, nofun⟩⟩⟩⟩, ?_⟩
      exact (Except.ok.inj heq).symm
    · rintro ⟨hall, rfl⟩
      obtain ⟨hone, hall⟩ := List.forall_mem_cons.mp hall
      obtain ⟨htwo, hall⟩ := List.forall_mem_cons.mp hall
      obtain ⟨hthree, hall⟩ := List.forall_mem_cons.mp hall
      obtain ⟨hfour, -⟩ := List.forall_mem_cons.mp hall
      exact ⟨hone, htwo, hthree, hfour, rfl⟩

end Written

end Reference
end Quietwire
