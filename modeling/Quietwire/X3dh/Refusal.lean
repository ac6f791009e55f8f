/-
  Quietwire.X3dh.Refusal

  What the two sides of a handshake refuse: an agreement on the all-zero secret and
  nothing else, and so exactly the public keys of low order.
-/
import Quietwire.X3dh.Handshake

namespace Quietwire

variable {α σ δ ρ : Type} [DecidableEq α] [Octet α] {P : Primitives α σ}
  {H : HybridPrimitives α δ ρ}

/-! ## What a handshake refuses -/

/-- A computation that fails only on an invalid public key. -/
def OnlyRefuses {β : Type} (result : Except CryptoError β) : Prop :=
  ∀ e, result = .error e → e = .invalidPublicKey

/-- A computation that starts with an agreement refuses no more than what goes on after it. -/
theorem OnlyRefuses.diffieHellman_bind {β : Type} {own : σ} {peer : PublicKey α}
    {next : SecretKey α → Except CryptoError β} (h : ∀ shared, OnlyRefuses (next shared)) :
    OnlyRefuses (diffieHellman P own peer >>= next) := by
  intro e he
  unfold diffieHellman at he
  by_cases hzero : P.x25519 own peer = zeroBytes
  · rw [if_pos hzero] at he
    exact (Except.error.inj he).symm
  · rw [if_neg hzero] at he
    exact h _ e he

omit [DecidableEq α] [Octet α] in
/-- What only refuses public keys does so exactly when it does not succeed. -/
theorem OnlyRefuses.eq_error_iff {β : Type} {result : Except CryptoError β} {accepts : Prop}
    (h : OnlyRefuses result) (hresult : (∃ b, result = .ok b) ↔ accepts) {e : CryptoError} :
    result = .error e ↔ e = .invalidPublicKey ∧ ¬ accepts := by
  rw [← hresult]
  constructor
  · intro he
    refine ⟨h e he, ?_⟩
    rintro ⟨b, hb⟩
    rw [he] at hb
    cases hb
  · rintro ⟨rfl, hnot⟩
    cases hcase : result with
    | ok b => exact absurd ⟨b, hcase⟩ hnot
    | error e => rw [h e hcase]

theorem Initiator.onlyRefuses_initiateWith (initiator : Initiator α σ) (bundle : PrekeyBundle α)
    (ephemeral : σ) (encapsulation : Ciphertext α × SecretKey α) :
    OnlyRefuses (initiator.initiateWith P H bundle ephemeral encapsulation) := by
  refine .diffieHellman_bind fun one => .diffieHellman_bind fun two => ?_
  refine .diffieHellman_bind fun three => ?_
  cases hprekey : bundle.oneTimePrekey with
  | none =>
    simp only [deriveSharedKey_eq]
    exact nofun
  | some oneTimePrekey =>
    refine .diffieHellman_bind fun four => ?_
    simp only [deriveSharedKey_eq]
    exact nofun

theorem Responder.onlyRefuses_respond (responder : Responder α σ δ)
    (initiator : IdentityPublic α) (message : InitialMessage α) :
    OnlyRefuses (responder.respond P H initiator message) := by
  refine .diffieHellman_bind fun one => .diffieHellman_bind fun two => ?_
  refine .diffieHellman_bind fun three => ?_
  cases hprekey : responder.oneTimePrekey with
  | none =>
    simp only [deriveSharedKey_eq]
    exact nofun
  | some oneTimePrekey =>
    refine .diffieHellman_bind fun four => ?_
    simp only [deriveSharedKey_eq]
    exact nofun

/-- An initiator refuses a bundle when one of its agreements gives the all-zero secret. -/
theorem Initiator.initiateWith_eq_error_iff {initiator : Initiator α σ} {bundle : PrekeyBundle α}
    {ephemeral : σ} {encapsulation : Ciphertext α × SecretKey α} {e : CryptoError} :
    initiator.initiateWith P H bundle ephemeral encapsulation = .error e ↔
      e = .invalidPublicKey ∧
        ∃ pair ∈ initiator.agreements bundle ephemeral, agreed P pair = zeroBytes := by
  have hresult : (∃ b, initiator.initiateWith P H bundle ephemeral encapsulation = .ok b) ↔
      ∀ pair ∈ initiator.agreements bundle ephemeral, agreed P pair ≠ zeroBytes := by
    constructor
    · rintro ⟨⟨key, message⟩, h⟩
      exact (initiateWith_eq_ok_iff.mp h).1
    · intro h
      exact ⟨_, initiateWith_eq_ok_iff.mpr ⟨h, rfl, rfl⟩⟩
  rw [(onlyRefuses_initiateWith _ _ _ _).eq_error_iff hresult]
  push Not
  rfl

/-- Likewise for a responder and an initial message. -/
theorem Responder.respond_eq_error_iff {responder : Responder α σ δ}
    {initiator : IdentityPublic α} {message : InitialMessage α} {e : CryptoError} :
    responder.respond P H initiator message = .error e ↔
      e = .invalidPublicKey ∧
        ∃ pair ∈ responder.agreements initiator message, agreed P pair = zeroBytes := by
  have hresult : (∃ key, responder.respond P H initiator message = .ok key) ↔
      ∀ pair ∈ responder.agreements initiator message, agreed P pair ≠ zeroBytes := by
    constructor
    · rintro ⟨key, h⟩
      exact (respond_eq_ok_iff.mp h).1
    · intro h
      exact ⟨_, respond_eq_ok_iff.mpr ⟨h, rfl⟩⟩
  rw [(onlyRefuses_respond _ _ _).eq_error_iff hresult]
  push Not
  rfl

/-! ## Points of low order -/

/-- `points` are those that give the all-zero secret, with every private key. -/
def LowOrder (P : Primitives α σ) (points : Set (PublicKey α)) : Prop :=
  ∀ own peer, P.x25519 own peer = zeroBytes ↔ peer ∈ points

/-- The X25519 keys of a bundle. -/
def PrekeyBundle.dhKeys (bundle : PrekeyBundle α) : List (PublicKey α) :=
  bundle.signedPrekey :: bundle.identity.dh :: bundle.oneTimePrekey.toList

omit [DecidableEq α] [Octet α] in
/-- An initiator agrees with every key of the bundle, and with no other. -/
theorem Initiator.exists_agreement_iff {initiator : Initiator α σ} {bundle : PrekeyBundle α}
    (ephemeral : σ) {points : Set (PublicKey α)} :
    (∃ pair ∈ initiator.agreements bundle ephemeral, pair.2 ∈ points) ↔
      ∃ key ∈ bundle.dhKeys, key ∈ points := by
  cases hprekey : bundle.oneTimePrekey with
  | none =>
    simp only [agreements, PrekeyBundle.dhKeys, hprekey, Option.map_none, Option.toList_none,
      List.append_nil, List.exists_mem_cons_iff, List.not_mem_nil, false_and, exists_false]
    tauto
  | some oneTimePrekey =>
    simp only [agreements, PrekeyBundle.dhKeys, hprekey, Option.map_some, Option.toList_some,
      List.cons_append, List.nil_append, List.exists_mem_cons_iff, List.not_mem_nil, false_and,
      exists_false]
    tauto

omit [DecidableEq α] [Octet α] in
/-- A responder agrees with the identity of the initiator and with the ephemeral key. -/
theorem Responder.exists_agreement_iff (responder : Responder α σ δ)
    {initiator : IdentityPublic α} {message : InitialMessage α} {points : Set (PublicKey α)} :
    (∃ pair ∈ responder.agreements initiator message, pair.2 ∈ points) ↔
      initiator.dh ∈ points ∨ message.ephemeral ∈ points := by
  cases hprekey : responder.oneTimePrekey with
  | none => simp [Responder.agreements, hprekey]
  | some oneTimePrekey => simp [Responder.agreements, hprekey]

section LowOrder

variable {lowOrder : Set (PublicKey α)} (hlow : LowOrder P lowOrder)
include hlow

omit [DecidableEq α] in
theorem exists_agreed_zero_iff {pairs : List (AgreementPair α σ)} :
    (∃ pair ∈ pairs, agreed P pair = zeroBytes) ↔ ∃ pair ∈ pairs, pair.2 ∈ lowOrder := by
  apply exists_congr
  intro pair
  rw [agreed, hlow]

/-- The RNG is asked first, so that its failure comes before a refusal. -/
theorem Initiator.initiate_eq_error_iff {initiator : Initiator α σ} {bundle : PrekeyBundle α}
    {generated : Except CryptoError σ} {randomness : Except CryptoError ρ} {e : CryptoError} :
    initiator.initiate P H bundle generated randomness = .error e ↔
      generated = .error e ∨ ∃ ephemeral, generated = .ok ephemeral ∧
        (randomness = .error e ∨ ∃ r, randomness = .ok r ∧
          e = .invalidPublicKey ∧ ∃ key ∈ bundle.dhKeys, key ∈ lowOrder) := by
  cases generated with
  | error e' =>
    show Except.error e' = .error e ↔ _
    simp
  | ok ephemeral =>
    cases randomness with
    | error e' =>
      show Except.error e' = .error e ↔ _
      simp
    | ok r =>
      show initiator.initiateWith P H bundle ephemeral (H.encapsulate bundle.identity.kem r)
        = .error e ↔ _
      rw [Initiator.initiateWith_eq_error_iff, exists_agreed_zero_iff hlow,
        exists_agreement_iff]
      simp

theorem Responder.refuses_iff {responder : Responder α σ δ} {initiator : IdentityPublic α}
    {message : InitialMessage α} {e : CryptoError} :
    responder.respond P H initiator message = .error e ↔
      e = .invalidPublicKey ∧ (initiator.dh ∈ lowOrder ∨ message.ephemeral ∈ lowOrder) := by
  rw [← exists_agreement_iff responder, ← exists_agreed_zero_iff hlow]
  exact Responder.respond_eq_error_iff

end LowOrder

end Quietwire
