/-
  Quietwire.Secrecy.Handshake

  Who can compute the key of a handshake, over the symbolic primitives.

  The attacker cuts and joins byte strings at will, and applies every primitive to
  what it holds.  A key is derived from a list of parts, each an agreement between
  two private keys or an encapsulated secret, and it can be computed exactly when
  every part can.  For a part that cannot, the letters that tell it are marked: its
  own letter, what is extracted from key material with this letter in it, and what
  is expanded from that.  No rule gives a marked letter that no premise has.
-/
import Quietwire.Support.Derivation
import Quietwire.Symbolic.Rounds
import Quietwire.X3dh.Agreement

namespace Quietwire
namespace Symbolic

/-- What an attacker on a handshake may hold: a byte string, the private key of an agreement,
    a decapsulation key, or the randomness of an encapsulation. -/
inductive Value where
  | text (letters : List Letter)
  | scalar (own : Nat)
  | kem (kem : Nat)
  | randomness (randomness : Nat)

/-- What it can compute from values that it holds. -/
inductive Rule : List Value → Value → Prop
  | byte (b : UInt8) : Rule [] (.text [.byte b])
  | append (s t : List Letter) : Rule [.text s, .text t] (.text (s ++ t))
  | part (s : List Letter) (start len : Nat) :
      Rule [.text s] (.text ((s.drop start).take len))
  | agree (own : Nat) (point : PublicKey Letter) :
      Rule [.scalar own, .text point.toList] (.text (primitives.x25519 own point).toList)
  | hmac (key message : List Letter) :
      Rule [.text key, .text message] (.text (hmac key message).toList)
  | deriveKey (context material : List Letter) :
      Rule [.text context, .text material] (.text (deriveKey context material).toList)
  | encapsulationKey (kem : Nat) : Rule [.kem kem] (.text (encapsulationKey kem).toList)
  | ciphertext (key : EncapsulationKey Letter) (randomness : Nat) :
      Rule [.text key.toList, .randomness randomness]
        (.text (encapsulate key randomness).1.toList)
  | shared (key : EncapsulationKey Letter) (randomness : Nat) :
      Rule [.text key.toList, .randomness randomness]
        (.text (encapsulate key randomness).2.toList)
  | decapsulate (kem : Nat) (ciphertext : Ciphertext Letter) :
      Rule [.kem kem, .text ciphertext.toList] (.text (decapsulate kem ciphertext).toList)

/-- A secret that goes into a key. -/
inductive Part where
  | agreement (a b : Nat)
  | encapsulation (kem randomness : Nat)

namespace Part

def letter : Part → Letter
  | agreement a b => .point basepoint ([b].orderedInsert (· ≤ ·) a)
  | encapsulation kem randomness => .kemShared (code (encapsulationKey kem).toList) randomness

def secret (part : Part) : SecretKey Letter := padded keyLen part.letter

/-- The private values that a part can be computed with. -/
def Needs : Part → Value → Prop
  | agreement a b, .scalar own => own = a ∨ own = b
  | encapsulation kem _, .kem kem' => kem' = kem
  | encapsulation _ randomness, .randomness randomness' => randomness' = randomness
  | _, _ => False

end Part

/-! ## Marked letters -/

def Letter.isMac : Letter → Bool
  | .mac .. => true
  | _ => false

/-- The letters that tell `part`, when it goes into the key material `ikm` that is extracted
    with `salt`. -/
inductive Marked (part : Part) (salt ikm : List Letter) (l : Letter) : Prop
  | part (h : l = part.letter)
  | extracted (second : Bool) (h : l = .mac second (code salt) (code ikm))
  | expanded (second : Bool) (message : Nat)
      (h : l = .mac second (code (Symbolic.hmac salt ikm).toList) message)

/-- A value that the attacker should not get. -/
def Withheld (part : Part) (salt ikm : List Letter) : Value → Prop
  | .text letters => ∃ l ∈ letters, Marked part salt ikm l
  | value => part.Needs value

variable {part : Part} {salt ikm : List Letter}

theorem Part.letter_ne_byte (part : Part) (b : UInt8) : Letter.byte b ≠ part.letter := by
  intro h
  cases part with
  | agreement a b => cases h
  | encapsulation kem randomness => cases h

theorem Part.letter_ne_mac (part : Part) (second : Bool) (key message : Nat) :
    Letter.mac second key message ≠ part.letter := by
  intro h
  cases part with
  | agreement a b => cases h
  | encapsulation kem randomness => cases h

/-- Apart from HMACs, only the letter of the part is marked. -/
theorem Marked.eq_letter {l : Letter} (h : Marked part salt ikm l) (hmac : l.isMac = false) :
    l = part.letter := by
  cases h with
  | part h => exact h
  | extracted second h =>
    rw [h] at hmac
    cases hmac
  | expanded second message h =>
    rw [h] at hmac
    cases hmac

theorem not_marked_byte (b : UInt8) : ¬ Marked part salt ikm (.byte b) := by
  intro h
  exact part.letter_ne_byte b (h.eq_letter rfl)

/-- A padded string is withheld if its letter is marked. -/
theorem withheld_padded {n : Nat} {letter : Letter}
    (h : Withheld part salt ikm (.text (padded n letter).toList)) :
    Marked part salt ikm letter := by
  obtain ⟨l, hl, hmarked⟩ := h
  rcases mem_padded hl with rfl | rfl
  · exact hmarked
  · exact absurd hmarked (not_marked_byte 0)

theorem withheld_hmac {key message : List Letter}
    (h : Withheld part salt ikm (.text (hmac key message).toList)) :
    ∃ second, Marked part salt ikm (.mac second (code key) (code message)) := by
  obtain ⟨l, hl, hmarked⟩ := h
  rw [hmac, Vector.toList_append, List.mem_append] at hl
  rcases hl with hl | hl
  · exact ⟨false, withheld_padded ⟨l, hl, hmarked⟩⟩
  · exact ⟨true, withheld_padded ⟨l, hl, hmarked⟩⟩

theorem mac_mem_hmac (key message : List Letter) :
    .mac false (code key) (code message) ∈ (hmac key message).toList := by
  rw [hmac, Vector.toList_append]
  exact List.mem_append_left _ (letter_mem_padded _ (by decide))

/-- No computation gives a withheld value from values that are not. -/
theorem withheld_guarding (hpart : part.letter ∈ ikm) :
    Guarding Rule (Withheld part salt ikm) := by
  intro premises value happlies hwithheld
  cases happlies with
  | byte b =>
    obtain ⟨l, hl, hmarked⟩ := hwithheld
    rw [List.mem_singleton] at hl
    rw [hl] at hmarked
    exact absurd hmarked (not_marked_byte b)
  | append s t =>
    obtain ⟨l, hl, hmarked⟩ := hwithheld
    rcases List.mem_append.mp hl with hs | ht
    · exact ⟨.text s, List.mem_cons_self, l, hs, hmarked⟩
    · exact ⟨.text t, List.mem_cons_of_mem _ List.mem_cons_self, l, ht, hmarked⟩
  | part s start len =>
    obtain ⟨l, hl, hmarked⟩ := hwithheld
    exact ⟨.text s, List.mem_cons_self, l, List.mem_of_mem_drop (List.mem_of_mem_take hl), hmarked⟩
  | agree own point =>
    obtain ⟨base, exponents, hx⟩ := x25519_eq own point
    rw [hx] at hwithheld
    have hletter := (withheld_padded hwithheld).eq_letter rfl
    -- the letter of a part that is a point tells the two private keys
    cases part with
    | agreement a b =>
      rw [hletter, Part.letter, ← x25519_publicKey] at hx
      exact ⟨.scalar own, List.mem_cons_self, (x25519_free hx).imp And.left And.left⟩
    | encapsulation kem randomness => cases hletter
  | hmac key message =>
    obtain ⟨second, hmarked⟩ := withheld_hmac hwithheld
    cases hmarked with
    | part h => exact absurd h (part.letter_ne_mac _ _ _)
    | extracted second h =>
      -- the message is the key material
      rw [Letter.mac.injEq, code_inj, code_inj] at h
      obtain ⟨-, -, rfl⟩ := h
      exact ⟨.text message, List.mem_cons_of_mem _ List.mem_cons_self, _, hpart, .part rfl⟩
    | expanded second text h =>
      -- the key is what was extracted
      have hkey := code_inj.mp (Letter.mac.inj h).2.1
      refine ⟨.text key, List.mem_cons_self, .mac false (code salt) (code ikm), ?_,
        .extracted false rfl⟩
      rw [hkey]
      exact mac_mem_hmac salt ikm
  | deriveKey context material =>
    rw [deriveKey] at hwithheld
    have hletter := (withheld_padded hwithheld).eq_letter rfl
    cases part with
    | agreement a b => cases hletter
    | encapsulation kem randomness => cases hletter
  | encapsulationKey kem =>
    rw [encapsulationKey] at hwithheld
    have hletter := (withheld_padded hwithheld).eq_letter rfl
    cases part with
    | agreement a b => cases hletter
    | encapsulation kem randomness => cases hletter
  | ciphertext key randomness =>
    rw [encapsulate] at hwithheld
    have hletter := (withheld_padded hwithheld).eq_letter rfl
    cases part with
    | agreement a b => cases hletter
    | encapsulation kem randomness => cases hletter
  | shared key randomness =>
    rw [encapsulate] at hwithheld
    have hletter := (withheld_padded hwithheld).eq_letter rfl
    cases part with
    | agreement a b => cases hletter
    | encapsulation kem randomness' =>
      obtain ⟨-, hrandomness⟩ := Letter.kemShared.inj hletter
      exact ⟨.randomness randomness, List.mem_cons_of_mem _ List.mem_cons_self, hrandomness⟩
  | decapsulate kem ciphertext =>
    rcases decapsulate_cases kem ciphertext with ⟨randomness, hgives⟩ | hgives
    · rw [hgives] at hwithheld
      have hletter := (withheld_padded hwithheld).eq_letter rfl
      cases part with
      | agreement a b => cases hletter
      | encapsulation kem' randomness' =>
        obtain ⟨hkey, -⟩ := Letter.kemShared.inj hletter
        have hkem := encapsulationKey_inj.mp (Vector.toList_inj.mp (code_inj.mp hkey))
        exact ⟨.kem kem, List.mem_cons_self, hkem⟩
    · rw [hgives] at hwithheld
      have hletter := (withheld_padded hwithheld).eq_letter rfl
      cases part with
      | agreement a b => cases hletter
      | encapsulation kem' randomness' => cases hletter

/-! ## The parts of a key -/

namespace Exchange

/-- What the key of an exchange is derived from, in the order of the secrets. -/
def parts (e : Exchange) : List Part :=
  [.agreement e.initiatorDh e.signedPrekey, .agreement e.ephemeral e.responderDh,
    .agreement e.ephemeral e.signedPrekey] ++ (e.oneTimePrekey.map (.agreement e.ephemeral)).toList
    ++ [.encapsulation e.responderKem e.randomness]

variable {e : Exchange}

theorem mem_parts : part ∈ e.parts ↔ part = .agreement e.initiatorDh e.signedPrekey ∨
    part = .agreement e.ephemeral e.responderDh ∨ part = .agreement e.ephemeral e.signedPrekey ∨
    (∃ oneTimePrekey, e.oneTimePrekey = some oneTimePrekey ∧
      part = .agreement e.ephemeral oneTimePrekey) ∨
    part = .encapsulation e.responderKem e.randomness := by
  simp only [parts, List.mem_append, List.mem_cons, List.not_mem_nil, or_false, Option.mem_toList,
    Option.map_eq_some_iff, or_assoc]
  refine or_congr Iff.rfl (or_congr Iff.rfl (or_congr Iff.rfl (or_congr ?_ Iff.rfl)))
  exact exists_congr fun _ => and_congr_right fun _ => eq_comm

/-- The KEM part of the key is that of the exchange. -/
theorem encapsulation_of_mem {kem randomness : Nat}
    (h : .encapsulation kem randomness ∈ e.parts) :
    kem = e.responderKem ∧ randomness = e.randomness := by
  rcases mem_parts.mp h with h | h | h | ⟨_, -, h⟩ | h
  · cases h
  · cases h
  · cases h
  · cases h
  · exact Part.encapsulation.inj h

theorem agreed_secret (a b : Nat) :
    agreed primitives (a, publicKey primitives b) = (Part.agreement a b).secret := by
  rw [agreed, x25519_publicKey, Part.secret, Part.letter]

theorem encapsulation_secret (e : Exchange) :
    e.encapsulation.2 = (Part.encapsulation e.responderKem e.randomness).secret := rfl

theorem agreements_eq (e : Exchange) : e.initiator.agreements e.bundle e.ephemeral =
    [(e.initiatorDh, publicKey primitives e.signedPrekey),
      (e.ephemeral, publicKey primitives e.responderDh),
      (e.ephemeral, publicKey primitives e.signedPrekey)] ++
        (e.oneTimePrekey.map fun key => (e.ephemeral, publicKey primitives key)).toList := by
  have hprekey : e.bundle.oneTimePrekey.map (e.ephemeral, ·)
      = e.oneTimePrekey.map fun key => (e.ephemeral, publicKey primitives key) :=
    Option.map_map _ _ _
  rw [← hprekey]
  rfl

theorem secrets_eq (e : Exchange) : e.keyInput.secrets = e.parts.map Part.secret := by
  have hsecrets : e.keyInput.secrets
      = (e.initiator.agreements e.bundle e.ephemeral).map (agreed primitives) ++
        [e.encapsulation.2] := rfl
  rw [hsecrets, agreements_eq, encapsulation_secret, parts]
  cases e.oneTimePrekey with
  | none =>
    simp only [Option.map_none, Option.toList_none, List.append_nil, List.map_append,
      List.map_cons, List.map_nil, agreed_secret]
  | some oneTimePrekey =>
    simp only [Option.map_some, Option.toList_some, List.map_append, List.map_cons, List.map_nil,
      agreed_secret]

/-- The letter of a part is in the key material. -/
theorem letter_mem_keyMaterial (hpart : part ∈ e.parts) :
    part.letter ∈ keyMaterial e.keyInput.secrets := by
  rw [keyMaterial, secrets_eq, List.flatten_cons, List.mem_append, List.mem_flatten]
  refine .inr ⟨part.secret.toList, ?_, letter_mem_padded _ (by decide)⟩
  exact List.mem_map_of_mem (List.mem_map_of_mem hpart)

theorem withheld_key (e : Exchange) (part : Part) :
    Withheld part (e.keyInput.transcript hybrid).toList (keyMaterial e.keyInput.secrets)
      (.text e.key.toList) := by
  rw [key, sharedKey_eq]
  exact ⟨_, letter_mem_padded _ (by decide), .expanded false _ rfl⟩

/-! ## What the attacker knows -/

/-- The strings that are public: both identities, the prekeys and the initial message. -/
def published (e : Exchange) : List (List Letter) :=
  [e.initiator.identity.sign.toList, e.initiator.identity.dh.toList,
    e.initiator.identity.kem.toList, e.bundle.identity.sign.toList, e.bundle.identity.dh.toList,
    e.bundle.identity.kem.toList, e.bundle.signedPrekey.toList, e.message.ephemeral.toList,
    e.message.kemCiphertext.toList] ++ (e.bundle.oneTimePrekey.map Vector.toList).toList

/-- The private keys of the agreements. -/
def scalars (e : Exchange) : List Nat :=
  [e.initiatorDh, e.ephemeral, e.responderDh, e.signedPrekey] ++ e.oneTimePrekey.toList

/-- The private keys of an agreement are private keys of the exchange. -/
theorem mem_scalars {a b : Nat} (h : .agreement a b ∈ e.parts) :
    a ∈ e.scalars ∧ b ∈ e.scalars := by
  rcases mem_parts.mp h with h | h | h | ⟨oneTimePrekey, hprekey, h⟩ | h
  · cases h
    simp [scalars]
  · cases h
    simp [scalars]
  · cases h
    simp [scalars]
  · cases h
    simp [scalars, hprekey]
  · cases h

/-- The private values of an exchange that may leak. -/
def Private (e : Exchange) : Value → Prop
  | .text letters => letters = e.encapsulation.2.toList
  | .scalar own => own ∈ e.scalars
  | _ => False

/-- A value that an attacker brings along. -/
def Foreign (e : Exchange) : Value → Prop
  | .text letters => ∀ l ∈ letters, ∃ b, l = .byte b
  | .scalar own => own ∉ e.scalars
  | .kem kem => kem ≠ e.responderKem
  | .randomness randomness => randomness ≠ e.randomness

def knowledge (e : Exchange) (leaked own : Set Value) : Set Value :=
  {v | v ∈ leaked ∨ (∃ t ∈ e.published, v = .text t) ∨ v ∈ own}

end Exchange

/-- Something has leaked that gives the part away. -/
def Part.Leaked (leaked : Set Value) : Part → Prop
  | .agreement a b => .scalar a ∈ leaked ∨ .scalar b ∈ leaked
  | .encapsulation kem randomness =>
    .text (Part.encapsulation kem randomness).secret.toList ∈ leaked

theorem not_withheld_publicKey (own : Nat) :
    ¬ Withheld part salt ikm (.text (publicKey primitives own).toList) := by
  intro h
  rw [publicKey_eq] at h
  have hletter := (withheld_padded h).eq_letter rfl
  cases part with
  | agreement a b =>
    -- a public key has one exponent, an agreement two
    have hlen := congrArg List.length (Letter.point.inj hletter).2
    rw [List.orderedInsert_length] at hlen
    cases hlen
  | encapsulation kem randomness => cases hletter

theorem not_withheld_bytes {letters : List Letter} (h : ∀ l ∈ letters, ∃ b, l = .byte b) :
    ¬ Withheld part salt ikm (.text letters) := by
  rintro ⟨l, hl, hmarked⟩
  obtain ⟨b, rfl⟩ := h l hl
  exact not_marked_byte b hmarked

theorem not_withheld_encapsulationKey (kem : Nat) :
    ¬ Withheld part salt ikm (.text (encapsulationKey kem).toList) := by
  intro h
  rw [encapsulationKey] at h
  have hletter := (withheld_padded h).eq_letter rfl
  cases part with
  | agreement a b => cases hletter
  | encapsulation kem randomness => cases hletter

theorem not_withheld_ciphertext (key : EncapsulationKey Letter) (randomness : Nat) :
    ¬ Withheld part salt ikm (.text (encapsulate key randomness).1.toList) := by
  intro h
  rw [encapsulate] at h
  have hletter := (withheld_padded h).eq_letter rfl
  cases part with
  | agreement a b => cases hletter
  | encapsulation kem randomness => cases hletter

theorem mem_map_byte {n : Nat} {bytes : Vector UInt8 n} :
    ∀ l ∈ (bytes.map Letter.byte).toList, ∃ b, l = .byte b := by
  intro l hl
  rw [Vector.toList_map, List.mem_map] at hl
  obtain ⟨b, -, rfl⟩ := hl
  exact ⟨b, rfl⟩

namespace Exchange

variable {e : Exchange} {leaked own : Set Value}

/-- Nothing public is withheld. -/
theorem not_withheld_published {t : List Letter} (ht : t ∈ e.published) :
    ¬ Withheld part salt ikm (.text t) := by
  rw [published, List.mem_append] at ht
  rcases ht with ht | ht
  · simp only [List.mem_cons, List.not_mem_nil, or_false] at ht
    rcases ht with rfl | rfl | rfl | rfl | rfl | rfl | rfl | rfl | rfl
    · exact not_withheld_bytes mem_map_byte
    · exact not_withheld_publicKey _
    · exact not_withheld_encapsulationKey _
    · exact not_withheld_bytes mem_map_byte
    · exact not_withheld_publicKey _
    · exact not_withheld_encapsulationKey _
    · exact not_withheld_publicKey _
    · exact not_withheld_publicKey _
    · exact not_withheld_ciphertext _ _
  · rw [Option.mem_toList, Option.map_eq_some_iff] at ht
    obtain ⟨key, hkey, rfl⟩ := ht
    obtain ⟨oneTimePrekey, -, rfl⟩ := Option.map_eq_some_iff.mp hkey
    exact not_withheld_publicKey _

/-- A part that has not leaked is withheld from all that the attacker knows. -/
theorem not_withheld_knowledge (hpart : part ∈ e.parts) (hsafe : ¬ part.Leaked leaked)
    (hleaked : ∀ v ∈ leaked, e.Private v) (hown : ∀ v ∈ own, e.Foreign v) {v : Value}
    (hv : v ∈ e.knowledge leaked own) : ¬ Withheld part salt ikm v := by
  rcases hv with hv | ⟨t, ht, rfl⟩ | hv
  · have hprivate := hleaked v hv
    cases v with
    | text letters =>
      -- the only string that leaks is the KEM secret
      intro hwithheld
      obtain rfl : letters = e.encapsulation.2.toList := hprivate
      have hletter := (withheld_padded hwithheld).eq_letter rfl
      cases part with
      | agreement a b => cases hletter
      | encapsulation kem randomness =>
        apply hsafe
        show .text (padded keyLen (Part.encapsulation kem randomness).letter).toList ∈ leaked
        rw [← hletter]
        exact hv
    | scalar own =>
      cases part with
      | agreement a b =>
        rintro (rfl | rfl)
        · exact hsafe (.inl hv)
        · exact hsafe (.inr hv)
      | encapsulation kem randomness => exact id
    | kem kem => exact hprivate.elim
    | randomness randomness => exact hprivate.elim
  · exact not_withheld_published ht
  · have hforeign := hown v hv
    cases v with
    | text letters => exact not_withheld_bytes hforeign
    | scalar own =>
      cases part with
      | agreement a b =>
        obtain ⟨ha, hb⟩ := mem_scalars hpart
        rintro (rfl | rfl)
        · exact hforeign ha
        · exact hforeign hb
      | encapsulation kem randomness => exact id
    | kem kem =>
      cases part with
      | agreement a b => exact id
      | encapsulation kem' randomness =>
        rintro rfl
        exact hforeign (encapsulation_of_mem hpart).1
    | randomness randomness =>
      cases part with
      | agreement a b => exact id
      | encapsulation kem randomness' =>
        rintro rfl
        exact hforeign (encapsulation_of_mem hpart).2

end Exchange

/-! ## What the attacker can compute -/

section Computing

variable {known : Set Value}

theorem derives_nil : Derives Rule known (.text []) :=
  .rule (.part [.byte 0] 0 0) (by
    intro p hp
    rw [List.mem_singleton.mp hp]
    exact .rule (.byte 0) (List.forall_mem_nil _))

theorem derives_append {s t : List Letter} (hs : Derives Rule known (.text s))
    (ht : Derives Rule known (.text t)) : Derives Rule known (.text (s ++ t)) := by
  refine .rule (.append s t) ?_
  intro p hp
  rcases List.mem_pair.mp hp with rfl | rfl
  · exact hs
  · exact ht

theorem derives_flatten {texts : List (List Letter)}
    (h : ∀ t ∈ texts, Derives Rule known (.text t)) :
    Derives Rule known (.text texts.flatten) := by
  induction texts with
  | nil => exact derives_nil
  | cons t texts ih =>
    rw [List.flatten_cons]
    exact derives_append (h t List.mem_cons_self)
      (ih fun t' ht => h t' (List.mem_cons_of_mem _ ht))

theorem derives_bytes {letters : List Letter} (h : ∀ l ∈ letters, ∃ b, l = .byte b) :
    Derives Rule known (.text letters) := by
  induction letters with
  | nil => exact derives_nil
  | cons l letters ih =>
    obtain ⟨b, rfl⟩ := h l List.mem_cons_self
    exact derives_append (s := [.byte b]) (.rule (.byte b) (List.forall_mem_nil _))
      (ih fun l' hl => h l' (List.mem_cons_of_mem _ hl))

theorem derives_ascii (text : String) : Derives Rule known (.text (asciiBytes text)) := by
  refine derives_bytes fun l hl => ?_
  obtain ⟨c, -, rfl⟩ := List.mem_map.mp hl
  exact ⟨c.toUInt8, rfl⟩

theorem derives_hmac {key message : List Letter} (hkey : Derives Rule known (.text key))
    (hmessage : Derives Rule known (.text message)) :
    Derives Rule known (.text (hmac key message).toList) := by
  refine .rule (.hmac key message) ?_
  intro p hp
  rcases List.mem_pair.mp hp with rfl | rfl
  · exact hkey
  · exact hmessage

/-- An agreement can be computed from either private key and the other public key. -/
theorem derives_agreement {a b : Nat}
    (hscalar : Derives Rule known (.scalar a) ∧
        Derives Rule known (.text (publicKey primitives b).toList) ∨
      Derives Rule known (.scalar b) ∧
        Derives Rule known (.text (publicKey primitives a).toList)) :
    Derives Rule known (.text (Part.agreement a b).secret.toList) := by
  rw [← Exchange.agreed_secret, agreed]
  rcases hscalar with ⟨hown, hpublic⟩ | ⟨hown, hpublic⟩
  · refine .rule (.agree a (publicKey primitives b)) ?_
    intro p hp
    rcases List.mem_pair.mp hp with rfl | rfl
    · exact hown
    · exact hpublic
  · rw [x25519_commutes]
    refine .rule (.agree b (publicKey primitives a)) ?_
    intro p hp
    rcases List.mem_pair.mp hp with rfl | rfl
    · exact hown
    · exact hpublic

/-- The key can be computed from the secrets and the bytes of the transcript. -/
theorem derives_sharedKey {input : KeyInput Letter}
    (hsecrets : ∀ s ∈ input.secrets, Derives Rule known (.text s.toList))
    (htranscript : Derives Rule known (.text input.transcriptBytes)) :
    Derives Rule known (.text (input.sharedKey primitives hybrid).toList) := by
  have hmaterial : Derives Rule known (.text (keyMaterial input.secrets)) := by
    refine derives_flatten ?_
    intro t ht
    rcases List.mem_cons.mp ht with rfl | ht
    · refine derives_bytes fun l hl => ⟨0xFF, ?_⟩
      rw [curve25519Prefix, Vector.toList_replicate] at hl
      exact List.eq_of_mem_replicate hl
    · obtain ⟨s, hs, rfl⟩ := List.mem_map.mp ht
      exact hsecrets s hs
  have hdigest : Derives Rule known (.text (input.transcript hybrid).toList) := by
    refine .rule (.deriveKey transcriptContext input.transcriptBytes) ?_
    intro p hp
    rcases List.mem_pair.mp hp with rfl | rfl
    · exact derives_ascii _
    · exact htranscript
  -- extract, expand one block, and cut it
  have hblock := derives_hmac (derives_hmac hdigest hmaterial)
    (derives_append (derives_ascii "QUIETWIRE-X3DH-HYBRID-v1")
      (.rule (.byte 1) (List.forall_mem_nil _)))
  rw [sharedKey_slice, toList_slice]
  refine .rule (.part _ 0 32) ?_
  intro p hp
  rw [List.mem_singleton.mp hp]
  exact hblock

end Computing

namespace Exchange

variable {e : Exchange} {leaked own : Set Value}

theorem derives_published {t : List Letter} (ht : t ∈ e.published) :
    Derives Rule (e.knowledge leaked own) (.text t) :=
  .known (.inr (.inl ⟨t, ht, rfl⟩))

theorem derives_leaked {v : Value} (hv : v ∈ leaked) :
    Derives Rule (e.knowledge leaked own) v :=
  .known (.inl hv)

/-- The bytes of the transcript are public. -/
theorem derives_transcript (e : Exchange) :
    Derives Rule (e.knowledge leaked own) (.text e.keyInput.transcriptBytes) := by
  have hpublic : ∀ t ∈ e.published, Derives Rule (e.knowledge leaked own) (.text t) :=
    fun _ => derives_published
  rw [published, List.forall_mem_append] at hpublic
  obtain ⟨hfields, hprekey⟩ := hpublic
  simp only [List.forall_mem_cons] at hfields
  obtain ⟨hsign, hdh, hkem, hsign', hdh', hkem', hsigned, hephemeral, hciphertext, -⟩ := hfields
  refine derives_flatten ?_
  simp only [List.forall_mem_cons]
  refine ⟨derives_flatten ?_, derives_flatten ?_, hephemeral, hsigned, ?_, hciphertext,
    List.forall_mem_nil _⟩
  · simp only [List.forall_mem_cons]
    exact ⟨hsign, hdh, hkem, List.forall_mem_nil _⟩
  · simp only [List.forall_mem_cons]
    exact ⟨hsign', hdh', hkem', List.forall_mem_nil _⟩
  · cases hpresent : e.bundle.oneTimePrekey with
    | none => exact derives_nil
    | some key =>
      rw [hpresent] at hprekey
      exact hprekey key.toList List.mem_cons_self

/-- The public key of every private key of an exchange is public. -/
theorem publicKey_published {a : Nat} (h : a ∈ e.scalars) :
    (publicKey primitives a).toList ∈ e.published := by
  rw [scalars, List.mem_append] at h
  rw [published, List.mem_append]
  rcases h with h | h
  · left
    simp only [List.mem_cons, List.not_mem_nil, or_false] at h
    rcases h with rfl | rfl | rfl | rfl
    · exact .tail _ (.head _)
    · exact .tail _ (.tail _ (.tail _ (.tail _ (.tail _ (.tail _ (.tail _ (.head _)))))))
    · exact .tail _ (.tail _ (.tail _ (.tail _ (.head _))))
    · exact .tail _ (.tail _ (.tail _ (.tail _ (.tail _ (.tail _ (.head _))))))
  · right
    rw [Option.mem_toList] at h ⊢
    exact congrArg (fun o => (o.map (publicKey primitives)).map Vector.toList) h

/-- A part that has leaked can be computed. -/
theorem derives_part (hpart : part ∈ e.parts) (hleaked : part.Leaked leaked) :
    Derives Rule (e.knowledge leaked own) (.text part.secret.toList) := by
  cases part with
  | agreement a b =>
    obtain ⟨ha, hb⟩ := mem_scalars hpart
    refine derives_agreement (hleaked.imp (fun h => ?_) fun h => ?_)
    · exact ⟨derives_leaked h, derives_published (publicKey_published hb)⟩
    · exact ⟨derives_leaked h, derives_published (publicKey_published ha)⟩
  | encapsulation kem randomness => exact derives_leaked hleaked

/-- The key can be computed exactly when every part has leaked. -/
theorem derives_key_iff (hleaked : ∀ v ∈ leaked, e.Private v) (hown : ∀ v ∈ own, e.Foreign v) :
    Derives Rule (e.knowledge leaked own) (.text e.key.toList) ↔
      ∀ part ∈ e.parts, part.Leaked leaked := by
  constructor
  · intro hderives part hpart
    by_contra hsafe
    refine hderives.not_guarded (withheld_guarding (letter_mem_keyMaterial hpart)) ?_
      (e.withheld_key part)
    intro v hv
    exact not_withheld_knowledge hpart hsafe hleaked hown hv
  · intro hparts
    refine derives_sharedKey ?_ e.derives_transcript
    intro s hs
    rw [secrets_eq] at hs
    obtain ⟨part, hpart, rfl⟩ := List.mem_map.mp hs
    exact derives_part hpart (hparts part hpart)

/-- When every part of a key has leaked, in terms of the private values. -/
theorem leaked_parts_iff (e : Exchange) (leaked : Set Value) :
    (∀ part ∈ e.parts, part.Leaked leaked) ↔
      .text e.encapsulation.2.toList ∈ leaked ∧
      (.scalar e.initiatorDh ∈ leaked ∨ .scalar e.signedPrekey ∈ leaked) ∧
      (.scalar e.ephemeral ∈ leaked ∨
        .scalar e.responderDh ∈ leaked ∧ .scalar e.signedPrekey ∈ leaked ∧
          ∀ oneTimePrekey, e.oneTimePrekey = some oneTimePrekey →
            .scalar oneTimePrekey ∈ leaked) := by
  constructor
  · intro h
    have hidentity := h _ (mem_parts.mpr (.inl rfl))
    have hresponder := h _ (mem_parts.mpr (.inr (.inl rfl)))
    have hsigned := h _ (mem_parts.mpr (.inr (.inr (.inl rfl))))
    have hkem := h _ (mem_parts.mpr (.inr (.inr (.inr (.inr rfl)))))
    refine ⟨hkem, hidentity, ?_⟩
    -- without the ephemeral key, its three or four agreements need the other ends
    by_cases hephemeral : .scalar e.ephemeral ∈ leaked
    · exact .inl hephemeral
    · refine .inr ⟨hresponder.resolve_left hephemeral, hsigned.resolve_left hephemeral, ?_⟩
      intro oneTimePrekey hprekey
      have hprekeyPart := h _ (mem_parts.mpr (.inr (.inr (.inr (.inl ⟨_, hprekey, rfl⟩)))))
      exact hprekeyPart.resolve_left hephemeral
  · rintro ⟨hkem, hidentity, hothers⟩ part hpart
    rcases mem_parts.mp hpart with rfl | rfl | rfl | ⟨oneTimePrekey, hprekey, rfl⟩ | rfl
    · exact hidentity
    · exact hothers.imp id fun h => h.1
    · exact hothers.imp id fun h => h.2.1
    · exact hothers.imp id fun h => h.2.2 oneTimePrekey hprekey
    · exact hkem

end Exchange

end Symbolic

open Symbolic

/-- Who can compute the key of a handshake.  Both sides of an honest exchange return one key,
    and an attacker that holds some of the private values, everything public and values of its
    own derives it exactly when it holds the KEM secret, a private key of the first agreement,
    and the ephemeral key or all private keys that the ephemeral key is agreed with. -/
theorem shared_key_derivable_iff (e : Exchange) :
    e.initiator.initiate primitives hybrid (e.responder.bundle primitives) (.ok e.ephemeral)
        (.ok e.randomness) = .ok (e.key, e.message) ∧
      e.responder.respond primitives hybrid e.initiator.identity e.message = .ok e.key ∧
      ∀ leaked own : Set Value, (∀ v ∈ leaked, e.Private v) → (∀ v ∈ own, e.Foreign v) →
        (Derives Rule (e.knowledge leaked own) (.text e.key.toList) ↔
          .text e.encapsulation.2.toList ∈ leaked ∧
          (.scalar e.initiatorDh ∈ leaked ∨ .scalar e.signedPrekey ∈ leaked) ∧
          (.scalar e.ephemeral ∈ leaked ∨
            .scalar e.responderDh ∈ leaked ∧ .scalar e.signedPrekey ∈ leaked ∧
              ∀ oneTimePrekey, e.oneTimePrekey = some oneTimePrekey →
                .scalar oneTimePrekey ∈ leaked)) := by
  have honest : e.initiator.Honest primitives := rfl
  have honest' : e.responder.Honest primitives hybrid := ⟨rfl, rfl⟩
  obtain ⟨hinitiate, hrespond⟩ : e.initiator.initiate primitives hybrid
        (e.responder.bundle primitives) (.ok e.ephemeral) (.ok e.randomness)
          = .ok (e.key, e.message) ∧
      e.responder.respond primitives hybrid e.initiator.identity e.message = .ok e.key :=
    initiate_respond correct.commutes correct.contributory correctKem honest honest' _ _ rfl rfl
  refine ⟨hinitiate, hrespond, ?_⟩
  intro leaked own hleaked hown
  rw [Exchange.derives_key_iff hleaked hown, e.leaked_parts_iff]

/-- All X25519 private keys are not enough without the KEM secret, the KEM secret is not enough
    by itself, and with the ephemeral key and the signed prekey it is. -/
theorem shared_key_derivable_iff_exchange :
    ¬ Derives Rule (exchange.knowledge {.scalar 1, .scalar 2, .scalar 3, .scalar 4, .scalar 5} ∅)
        (.text exchange.key.toList) ∧
      ¬ Derives Rule (exchange.knowledge {.text exchange.encapsulation.2.toList} ∅)
        (.text exchange.key.toList) ∧
      Derives Rule (exchange.knowledge {.scalar 3, .scalar 5,
        .text exchange.encapsulation.2.toList} ∅) (.text exchange.key.toList) := by
  obtain ⟨-, -, hiff⟩ := shared_key_derivable_iff exchange
  have hown : ∀ v ∈ (∅ : Set Value), exchange.Foreign v := fun v hv =>
    absurd hv (Set.notMem_empty v)
  refine ⟨?_, ?_, ?_⟩
  · rw [hiff _ ∅ ?_ hown]
    · simp
    · rintro v (rfl | rfl | rfl | rfl | rfl) <;> simp [Exchange.Private, Exchange.scalars, exchange]
  · rw [hiff _ ∅ ?_ hown]
    · simp
    · rintro v rfl
      rfl
  · rw [hiff _ ∅ ?_ hown]
    · simp [exchange]
    · rintro v (rfl | rfl | rfl)
      · simp [Exchange.Private, Exchange.scalars, exchange]
      · simp [Exchange.Private, Exchange.scalars, exchange]
      · rfl

end Quietwire
