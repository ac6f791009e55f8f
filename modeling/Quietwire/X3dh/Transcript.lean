/-
  Quietwire.X3dh.Transcript

  What a shared key tells about the side that derived it: the secrets and the
  transcript, and through the transcript the view.  The fields of a transcript are
  not framed, but all have a fixed length except the one-time prekey, and that one
  is told by what is left between the signed prekey and the KEM ciphertext.
-/
import Quietwire.X3dh.Handshake

namespace Quietwire

variable {α σ δ ρ : Type}

/-! ## The transcript tells the view -/

theorem IdentityPublic.toBytes_append_inj {a b : IdentityPublic α} {s t : List α} :
    a.toBytes ++ s = b.toBytes ++ t ↔ a = b ∧ s = t := by
  constructor
  · intro h
    simp only [toBytes, List.flatten_cons, List.flatten_nil, List.append_nil, List.append_assoc,
      toList_append_inj] at h
    obtain ⟨hsign, hdh, hkem, hrest⟩ := h
    refine ⟨?_, hrest⟩
    cases a
    cases b
    cases hsign
    cases hdh
    cases hkem
    rfl
  · rintro ⟨rfl, rfl⟩
    rfl

/-- An absent prekey is told from a present one by its length. -/
theorem oneTimePrekey_inj {a b : Option (PublicKey α)}
    (h : (a.map Vector.toList).getD [] = (b.map Vector.toList).getD []) : a = b := by
  have hlen := congrArg List.length h
  cases a with
  | none =>
    cases b with
    | none => rfl
    | some key =>
      rw [Option.map_some, Option.getD_some, Vector.length_toList] at hlen
      cases hlen
  | some key =>
    cases b with
    | none =>
      rw [Option.map_some, Option.getD_some, Vector.length_toList] at hlen
      cases hlen
    | some key' => exact congrArg some (Vector.toList_inj.mp h)

theorem transcriptBytes_inj {initiator initiator' : IdentityPublic α}
    {bundle bundle' : PrekeyBundle α} {message message' : InitialMessage α}
    (h : transcriptBytes initiator bundle message = transcriptBytes initiator' bundle' message') :
    initiator = initiator' ∧ bundle = bundle' ∧ message = message' := by
  simp only [transcriptBytes, List.flatten_cons, List.flatten_nil, List.append_nil,
    IdentityPublic.toBytes_append_inj, toList_append_inj] at h
  obtain ⟨hinitiator, hidentity, hephemeral, hsigned, hrest⟩ := h
  -- what remains is cut from its end, where the ciphertext has a fixed length
  obtain ⟨hprekey, hciphertext⟩ :=
    List.append_inj' hrest (by rw [Vector.length_toList, Vector.length_toList])
  refine ⟨hinitiator, ?_, ?_⟩
  · cases bundle
    cases bundle'
    cases hidentity
    cases hsigned
    cases oneTimePrekey_inj hprekey
    rfl
  · cases message
    cases message'
    cases hephemeral
    cases Vector.toList_inj.mp hciphertext
    rfl

theorem keyMaterial_inj [Octet α] {secrets secrets' : List (SecretKey α)}
    (h : keyMaterial secrets = keyMaterial secrets') : secrets = secrets' := by
  rw [keyMaterial, keyMaterial, List.flatten_cons, List.flatten_cons, toList_append_inj] at h
  exact flatten_toList_inj (by decide) h.2

variable [Octet α] (P : Primitives α σ) (H : HybridPrimitives α δ ρ)

/-- Neither BLAKE3 nor HKDF collides on what these inputs feed to them. -/
structure CollisionFree (inputs : Set (KeyInput α)) : Prop where
  deriveKey : ∀ a ∈ inputs, ∀ b ∈ inputs, a.transcript H = b.transcript H →
    a.transcriptBytes = b.transcriptBytes
  hkdf : ∀ a ∈ inputs, ∀ b ∈ inputs, a.sharedKey P H = b.sharedKey P H →
    keyMaterial a.secrets = keyMaterial b.secrets ∧ a.transcript H = b.transcript H

variable {P H}

/-- A key comes from one input only. -/
theorem CollisionFree.sharedKey_inj {inputs : Set (KeyInput α)} (free : CollisionFree P H inputs)
    {a b : KeyInput α} (ha : a ∈ inputs) (hb : b ∈ inputs)
    (h : a.sharedKey P H = b.sharedKey P H) : a = b := by
  obtain ⟨hmaterial, hdigest⟩ := free.hkdf a ha b hb h
  have hsecrets := keyMaterial_inj hmaterial
  have hbytes := free.deriveKey a ha b hb hdigest
  cases a
  cases b
  cases hsecrets
  cases hbytes
  rfl

theorem CollisionFree.mono {inputs inputs' : Set (KeyInput α)} (free : CollisionFree P H inputs)
    (hsubset : inputs' ⊆ inputs) : CollisionFree P H inputs' where
  deriveKey a ha b hb := free.deriveKey a (hsubset ha) b (hsubset hb)
  hkdf a ha b hb := free.hkdf a (hsubset ha) b (hsubset hb)

end Quietwire
