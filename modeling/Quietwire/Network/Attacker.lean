/-
  Quietwire.Network.Attacker

  The network under an attacker that sees every initial message and every frame, and
  delivers whatever it can compute.  Nothing is assumed of the AEAD here: that a frame
  opens only where it was sealed is a consequence of what the attacker can compute.

  A session is secret when a secret part that the attacker is not given goes into its
  shared key.  Then its keys are tainted, and the ciphertexts under them are not to be
  had before they are sent.
-/
import Quietwire.Network.Agreement
import Quietwire.Secrecy.Taint

namespace Quietwire
namespace Symbolic

/-- The bytes of a frame as sent. -/
def frameText (sealed : SealedFrame Letter) : List Letter :=
  sealed.nonce.toList ++ sealed.frame.toList

theorem frameText_eq (sealed : SealedFrame Letter) : frameText sealed
    = sealed.nonce.toList ++ (sealed.aad.toList ++ sealed.ciphertext.toList) := by
  have hparts : sealed.aad ++ sealed.ciphertext = sealed.frame :=
    slice_append_slice sealed.frame (by decide) (by decide)
  have hframe := congrArg Vector.toList hparts
  rw [Vector.toList_append] at hframe
  rw [frameText, hframe]

/-- A value with which the attacker does not have the secret parts. -/
def Harmless (secret : Set Part) : Value → Prop
  | .text letters => ∀ l ∈ letters, l.isSealed = false ∧ ¬ Tainted secret l
  | value => ∀ part ∈ secret, ¬ part.Needs value

/-- A secret part goes into the key. -/
def SecretInput (secret : Set Part) (input : KeyInput Letter) : Prop :=
  TaintedText secret (keyMaterial input.secrets)

def AllBytes (letters : List Letter) : Prop := ∀ l ∈ letters, ∃ b, l = .byte b

/-- What the attacker holds: what it started with, the initial messages of the initiators and
    the frames of all sessions. -/
def wire (known : Set Value) (net : Network Letter Nat) : Set Value :=
  {v | v ∈ known ∨
    (∃ m ∈ net.members, m.view.side = .initiator ∧ (v = .text m.view.message.ephemeral.toList ∨
      v = .text m.view.message.kemCiphertext.toList)) ∨
    ∃ use : Network.Use Letter, .sealed use ∈ net.log ∧ v = .text (frameText use.sealed)}

/-- What can happen under the attacker.  Handshakes are on any input.  Frames are sealed with
    nonces that are machine bytes, and so are plaintexts outside of the secret sessions.  Frames
    are delivered when the attacker can compute them. -/
def Attacked (secret : Set Part) (known : Set Value) (net : Network Letter Nat) :
    Network.Event Letter Nat Nat Nat → Prop
  | .call i (.encrypt random plaintext) => (∀ nonce, random = some nonce → AllBytes nonce.toList) ∧
    ∀ m, net.members[i]? = some m → ¬ SecretInput secret m.input → AllBytes plaintext.toList
  | .call _ (.decrypt sealed _) => Derives FrameRule (wire known net) (.text (frameText sealed))
  | _ => True

variable {secret : Set Part} {known : Set Value}

/-! ## Harmless texts -/

theorem harmless_bytes {letters : List Letter} (h : AllBytes letters) :
    Harmless secret (.text letters) := by
  intro l hl
  obtain ⟨b, rfl⟩ := h l hl
  exact ⟨rfl, not_tainted_byte b⟩

theorem harmless_append {s t : List Letter} (hs : Harmless secret (.text s))
    (ht : Harmless secret (.text t)) : Harmless secret (.text (s ++ t)) := by
  intro l hl
  rcases List.mem_append.mp hl with h | h
  · exact hs l h
  · exact ht l h

theorem harmless_padded {n : Nat} {letter : Letter} (hsealed : letter.isSealed = false)
    (htainted : ¬ Tainted secret letter) : Harmless secret (.text (padded n letter).toList) := by
  intro l hl
  rcases mem_padded hl with rfl | rfl
  · exact ⟨hsealed, htainted⟩
  · exact ⟨rfl, not_tainted_byte 0⟩

theorem harmless_publicKey (own : Nat) :
    Harmless secret (.text (publicKey primitives own).toList) := by
  rw [publicKey_eq]
  refine harmless_padded rfl fun h => ?_
  obtain ⟨part, -, hletter⟩ := h.exists_part rfl
  cases part with
  | agreement a b =>
    -- a public key has one exponent, an agreement two
    have hlen := congrArg List.length (Letter.point.inj hletter).2
    rw [List.orderedInsert_length] at hlen
    cases hlen
  | encapsulation kem randomness => cases hletter

theorem harmless_ciphertext (key : EncapsulationKey Letter) (randomness : Nat) :
    Harmless secret (.text (encapsulate key randomness).1.toList) := by
  rw [encapsulate]
  refine harmless_padded rfl fun h => ?_
  obtain ⟨part, -, hletter⟩ := h.exists_part rfl
  cases part with
  | agreement a b => cases hletter
  | encapsulation kem randomness => cases hletter

theorem allBytes_toLeBytes (n : UInt32) : AllBytes (toLeBytes n : Vector Letter 4).toList := by
  intro l hl
  rw [toLeBytes] at hl
  simp only [Vector.toList_mk, List.mem_cons, List.not_mem_nil, or_false] at hl
  rcases hl with rfl | rfl | rfl | rfl
  · exact ⟨_, rfl⟩
  · exact ⟨_, rfl⟩
  · exact ⟨_, rfl⟩
  · exact ⟨_, rfl⟩

theorem harmless_header {header : Header Letter} {own : Nat}
    (hratchet : header.ratchet = publicKey primitives own) :
    Harmless secret (.text header.toBytes.toList) := by
  rw [Header.toBytes, Vector.toList_append, Vector.toList_append, hratchet]
  exact harmless_append (harmless_append (harmless_publicKey own)
    (harmless_bytes (allBytes_toLeBytes _))) (harmless_bytes (allBytes_toLeBytes _))

/-! ## What an attacker on a handshake knows -/

/-- A letter that is no output of HMAC or of the AEAD. -/
def Plain (l : Letter) : Prop := l.isMac = false ∧ l.isSealed = false

theorem plain_padded {n : Nat} {letter l : Letter} (h : Plain letter)
    (hl : l ∈ (padded n letter).toList) : Plain l := by
  rcases mem_padded hl with rfl | rfl
  · exact h
  · exact ⟨rfl, rfl⟩

theorem plain_bytes {letters : List Letter} (h : AllBytes letters) {l : Letter}
    (hl : l ∈ letters) : Plain l := by
  obtain ⟨b, rfl⟩ := h l hl
  exact ⟨rfl, rfl⟩

theorem plain_publicKey (own : Nat) {l : Letter} (hl : l ∈ (publicKey primitives own).toList) :
    Plain l := by
  rw [publicKey_eq] at hl
  exact plain_padded ⟨rfl, rfl⟩ hl

theorem Exchange.plain_published {e : Exchange} {t : List Letter} (ht : t ∈ e.published)
    {l : Letter} (hl : l ∈ t) : Plain l := by
  rw [published, List.mem_append] at ht
  rcases ht with ht | ht
  · simp only [List.mem_cons, List.not_mem_nil, or_false] at ht
    rcases ht with rfl | rfl | rfl | rfl | rfl | rfl | rfl | rfl | rfl
    · exact plain_bytes mem_map_byte hl
    · exact plain_publicKey _ hl
    · exact plain_padded ⟨rfl, rfl⟩ hl
    · exact plain_bytes mem_map_byte hl
    · exact plain_publicKey _ hl
    · exact plain_padded ⟨rfl, rfl⟩ hl
    · exact plain_publicKey _ hl
    · exact plain_publicKey _ hl
    · exact plain_padded ⟨rfl, rfl⟩ hl
  · rw [Option.mem_toList, Option.map_eq_some_iff] at ht
    obtain ⟨key, hkey, rfl⟩ := ht
    obtain ⟨oneTimePrekey, -, rfl⟩ := Option.map_eq_some_iff.mp hkey
    exact plain_publicKey _ hl

/-- Whatever has leaked of an exchange and whatever the attacker brings along is harmless for a
    part that has not leaked. -/
theorem Exchange.harmless_knowledge {e : Exchange} {leaked own : Set Value} {part : Part}
    (hpart : part ∈ e.parts) (hsafe : ¬ part.Leaked leaked) (hleaked : ∀ v ∈ leaked, e.Private v)
    (hown : ∀ v ∈ own, e.Foreign v) {v : Value} (hv : v ∈ e.knowledge leaked own) :
    Harmless {part} v := by
  have hkept : ¬ Withheld part [] [part.letter] v :=
    not_withheld_knowledge hpart hsafe hleaked hown hv
  cases v with
  | text letters =>
    intro l hl
    have hplain : Plain l := by
      rcases hv with hv | ⟨t, ht, heq⟩ | hv
      · have hprivate := hleaked _ hv
        obtain rfl : letters = e.encapsulation.2.toList := hprivate
        exact plain_padded ⟨rfl, rfl⟩ hl
      · cases heq
        exact plain_published ht hl
      · exact plain_bytes (hown _ hv) hl
    refine ⟨hplain.2, fun htainted => hkept ⟨l, hl, .part ?_⟩⟩
    obtain ⟨part', hmem, hletter⟩ := htainted.exists_part hplain.1
    rw [hletter, Set.mem_singleton_iff.mp hmem]
  | scalar own =>
    rintro part' rfl
    exact hkept
  | kem kem =>
    rintro part' rfl
    exact hkept
  | randomness randomness =>
    rintro part' rfl
    exact hkept

theorem Harmless.not_hidden {unsent : Letter → Prop} (hunsent : UnderTaintedKeys secret unsent)
    {value : Value} (h : Harmless secret value) : ¬ HiddenValue secret unsent value := by
  cases value with
  | text letters =>
    rintro ⟨l, hl, hhidden⟩
    obtain ⟨hsealed, htainted⟩ := h l hl
    exact htainted (hhidden.tainted_of hunsent hsealed)
  | scalar own =>
    rintro ⟨part, hpart, hneeds⟩
    exact h part hpart hneeds
  | kem kem =>
    rintro ⟨part, hpart, hneeds⟩
    exact h part hpart hneeds
  | randomness randomness =>
    rintro ⟨part, hpart, hneeds⟩
    exact h part hpart hneeds

/-! ## What the sessions give out -/

/-- A frame that a session has sealed. -/
structure Sent (secret : Set Part) (use : Network.Use Letter) : Prop where
  nonce : AllBytes use.sealed.nonce.toList
  header : Harmless secret (.text use.sealed.aad.toList)
  sealing : ∃ key, use.key = some key ∧ aeadSeal primitives key use.sealed.nonce
    use.sealed.aad.toList use.plaintext.toList = .ok use.sealed.ciphertext.toList
  tainted : SecretInput secret use.input → ∀ key, use.key = some key →
    TaintedText secret key.toList
  plain : ¬ SecretInput secret use.input → AllBytes use.plaintext.toList

/-- A ciphertext under a tainted key that is in no frame of the network. -/
def Unsent (secret : Set Part) (net : Network Letter Nat) (l : Letter) : Prop :=
  (∃ key nonce aad text, TaintedText secret key ∧
    l = .sealed (code key) (code nonce) (code aad) (code text)) ∧
  ∀ use : Network.Use Letter, .sealed use ∈ net.log → l ∉ use.sealed.ciphertext.toList

theorem underTaintedKeys (secret : Set Part) (net : Network Letter Nat) :
    UnderTaintedKeys secret (Unsent secret net) := fun _ h => h.1

/-- The keys of a secret session are tainted. -/
theorem SecretInput.tainted_slot {input : KeyInput Letter} (h : SecretInput secret input)
    (slot : Slot Letter) :
    TaintedText secret (slot.key primitives (input.sharedKey primitives hybrid)).toList := by
  have hroot : ∀ agreed : List (SecretKey Letter), TaintedText secret
      (rootKeyAfter primitives (input.sharedKey primitives hybrid) agreed).toList := by
    intro agreed
    induction agreed with
    | nil => exact tainted_sharedKey h
    | cons shared older ih => exact (tainted_expandRoot ih shared).1
  exact tainted_messageKeyAt (tainted_expandRoot (hroot slot.older) slot.secret).2 slot.number

structure Secure (secret : Set Part) (net : Network Letter Nat) : Prop where
  sound : Network.Sound primitives hybrid net
  announced : ∀ m ∈ net.members, m.view.side = .initiator →
    Harmless secret (.text m.view.message.ephemeral.toList) ∧
      Harmless secret (.text m.view.message.kemCiphertext.toList)
  sent : ∀ use, .sealed use ∈ net.log → Sent secret use

/-- Nothing on the wire gives the attacker a hidden value. -/
theorem Secure.not_hidden {net : Network Letter Nat} (h : Secure secret net)
    (hknown : ∀ v ∈ known, Harmless secret v) {v : Value} (hv : v ∈ wire known net) :
    ¬ HiddenValue secret (Unsent secret net) v := by
  have hunsent := underTaintedKeys secret net
  rcases hv with hv | ⟨m, hm, hside, hv⟩ | ⟨use, huse, rfl⟩
  · exact (hknown v hv).not_hidden hunsent
  · obtain ⟨hephemeral, hciphertext⟩ := h.announced m hm hside
    rcases hv with rfl | rfl
    · exact hephemeral.not_hidden hunsent
    · exact hciphertext.not_hidden hunsent
  · have hsent := h.sent use huse
    obtain ⟨key, hkey, hseal⟩ := hsent.sealing
    rintro ⟨l, hl, hhidden⟩
    rw [frameText_eq, List.mem_append, List.mem_append] at hl
    rcases hl with hnonce | haad | hciphertext
    · exact (harmless_bytes hsent.nonce).not_hidden hunsent ⟨l, hnonce, hhidden⟩
    · exact hsent.header.not_hidden hunsent ⟨l, haad, hhidden⟩
    · have hplace := hciphertext
      rw [aeadSeal_letter hseal] at hciphertext
      rcases mem_padded hciphertext with rfl | rfl
      · -- the ciphertext is sent, so its text would be hidden under an untainted key
        rcases hhidden.of_sealed hunsent with ⟨-, hnever⟩ | ⟨huntainted, l, hl, hhidden⟩
        · exact hnever.2 use huse hplace
        · have hplain := hsent.plain fun hsecret => huntainted (hsent.tainted hsecret key hkey)
          exact (harmless_bytes hplain).not_hidden hunsent ⟨l, hl, hhidden⟩
      · exact not_tainted_byte 0 (hhidden.tainted_of hunsent rfl)

/-! ## No frame is forged -/

/-- A frame that the attacker can compute opens under the key of a secret session only if a
    session has sealed it. -/
theorem Secure.unforged {net : Network Letter Nat} (h : Secure secret net)
    (hknown : ∀ v ∈ known, Harmless secret v) {event : Network.Event Letter Nat Nat Nat}
    (hattacked : Attacked secret known net event) :
    net.Unforged primitives (SecretInput secret) event := by
  cases event with
  | initiate initiator bundle generated randomness ratchet => trivial
  | respond responder claimed message => trivial
  | call i call =>
    cases call with
    | encrypt random plaintext => trivial
    | decrypt sealed random =>
      intro m hm hsecret key plaintext htried hopens
      obtain ⟨agreed, opened, -, hscheduled⟩ := h.sound.scheduled i m hm
      obtain ⟨slot, hslot⟩ := hscheduled.exists_slot_of_tried htried
      have hkey : TaintedText secret key.toList := hslot ▸ hsecret.tainted_slot slot
      have hletter := aeadSeal_letter (aeadOpen_iff.mp hopens)
      -- the ciphertext is in the frame, so the attacker has it
      have hmem : Letter.sealed (code key.toList) (code sealed.nonce.toList)
          (code sealed.aad.toList) (code plaintext.toList) ∈ frameText sealed := by
        rw [frameText_eq, hletter]
        exact List.mem_append_right _ (List.mem_append_right _
          (letter_mem_padded _ (Nat.succ_pos _)))
      have hsent : ¬ Unsent secret net (.sealed (code key.toList) (code sealed.nonce.toList)
          (code sealed.aad.toList) (code plaintext.toList)) := by
        intro hunsent
        have hhidden : HiddenValue secret (Unsent secret net) (.text (frameText sealed)) :=
          ⟨_, hmem, .unsent hunsent⟩
        exact not_derives_hidden (underTaintedKeys secret net)
          (fun v hv => h.not_hidden hknown hv) hhidden hattacked
      obtain ⟨use, huse, hplace⟩ : ∃ use : Network.Use Letter, .sealed use ∈ net.log ∧
          .sealed (code key.toList) (code sealed.nonce.toList) (code sealed.aad.toList)
            (code plaintext.toList) ∈ use.sealed.ciphertext.toList := by
        by_contra hnone
        exact hsent ⟨⟨key.toList, _, _, _, hkey, rfl⟩,
          fun use huse hplace => hnone ⟨use, huse, hplace⟩⟩
      obtain ⟨key', hkey', hseal⟩ := (h.sent use huse).sealing
      rw [aeadSeal_letter hseal] at hplace
      rcases mem_padded hplace with heq | heq
      · rw [Letter.sealed.injEq, code_inj, code_inj, code_inj, code_inj, Vector.toList_inj,
          Vector.toList_inj, Vector.toList_inj, Vector.toList_inj] at heq
        obtain ⟨rfl, hnonce, haad, rfl⟩ := heq
        refine ⟨use, huse, hkey', hnonce.symm, haad.symm, ?_, rfl⟩
        rw [← Vector.toList_inj, aeadSeal_letter hseal, hletter, hnonce, haad]
      · cases heq

theorem Secure.change {net net' : Network Letter Nat} {event : Network.Event Letter Nat Nat Nat}
    (h : Secure secret net) (hattacked : Attacked secret known net event)
    (hchange : Network.Change primitives hybrid net event net') : Secure secret net' := by
  have hsound := h.sound.change hchange
  have hset : ∀ {i : Nat} {m : Member Letter Nat} (session : Session Letter Nat),
      net.members[i]? = some m → ∀ n ∈ net.members.set i { m with session },
      n.view.side = .initiator → Harmless secret (.text n.view.message.ephemeral.toList) ∧
        Harmless secret (.text n.view.message.kemCiphertext.toList) := by
    intro i m session hm n hn hside
    obtain ⟨n', hn', hview, -⟩ := Network.mem_set_session hm hn
    rw [← hview] at hside ⊢
    exact h.announced n' hn' hside
  cases hchange with
  | nothing => exact h
  | started starts =>
    refine ⟨hsound, ?_, h.sent⟩
    intro n hn hside
    rcases List.mem_append.mp hn with hold | hnew
    · exact h.announced n hold hside
    · obtain rfl := List.mem_singleton.mp hnew
      obtain ⟨ephemeral, key, randomness, hmessage⟩ := starts.announced hside
      rw [hmessage]
      exact ⟨harmless_publicKey ephemeral, harmless_ciphertext key randomness⟩
  | @sealed i m nonce plaintext sealed session chain member run =>
    refine ⟨hsound, hset session member, ?_⟩
    intro use huse
    rcases List.mem_cons.mp huse with heq | hold
    · cases heq
      obtain ⟨agreed, opened, -, hscheduled⟩ := h.sound.scheduled i m member
      obtain ⟨⟨slot, hslot, -⟩, -⟩ := hscheduled.sealed run
      refine ⟨?_, ?_, ⟨_, rfl, ?_⟩, ?_, ?_⟩
      · rw [run.nonce_eq]
        exact hattacked.1 nonce rfl
      · rw [run.aad]
        exact harmless_header rfl
      · rw [run.nonce_eq]
        exact run.sealing
      · rintro hsecret _ ⟨⟩
        rw [hslot]
        exact hsecret.tainted_slot slot
      · exact hattacked.2 m member
    · exact h.sent use hold
  | @opened i m sealed random plaintext key session member run =>
    refine ⟨hsound, hset session member, ?_⟩
    intro use huse
    rcases List.mem_cons.mp huse with heq | hold
    · cases heq
    · exact h.sent use hold

theorem secure_empty : Secure secret (Network.empty : Network Letter Nat) :=
  ⟨Network.sound_empty, nofun, nofun⟩

/-- The invariant along a run, which is a run of the network with an unforgeable AEAD. -/
theorem secure_reaches (hknown : ∀ v ∈ known, Harmless secret v) {net : Network Letter Nat}
    (hreaches : Machine.Reaches (Network.step primitives hybrid) (Attacked secret known)
      Network.empty net) :
    Secure secret net ∧
      Network.Reaches primitives hybrid (SecretInput secret) Network.empty net := by
  induction hreaches with
  | refl => exact ⟨secure_empty, .refl⟩
  | @tail net event _ hattacked ih =>
    obtain ⟨hsecure, hunforged⟩ := ih
    exact ⟨hsecure.change hattacked (Network.step_change _ _ net event),
      hunforged.tail (hsecure.unforged hknown hattacked)⟩

end Symbolic

open Symbolic

/-- Any number of handshakes and sessions under an active attacker.  The attacker sees every
    initial message and frame, gives the handshakes any bundles, identities and messages, and
    delivers any frame that it can compute with the primitives.  Let a session be secret when a
    part that the attacker is not given goes into its shared key.  Then what a secret session
    opens had been sealed by a session on the other side of the same handshake, and the attacker
    computes neither its shared key, nor a message key that it seals under, nor any text with a
    secret in it. -/
theorem network_withstands_attacker (secret : Set Part) (known : Set Value)
    (hknown : ∀ v ∈ known, Harmless secret v) (net : Network Letter Nat)
    (hreaches : Machine.Reaches (Network.step primitives hybrid) (Attacked secret known)
      Network.empty net) :
    (∀ o before, (.opened o :: before) <:+ net.log → SecretInput secret o.input →
      ∃ s, .sealed s ∈ before ∧ o.view.Matches s.view ∧ s.sealed = o.sealed ∧
        s.plaintext = o.plaintext) ∧
    (∀ m ∈ net.members, SecretInput secret m.input →
      ¬ Derives FrameRule (wire known net)
        (.text (m.input.sharedKey primitives hybrid).toList)) ∧
    (∀ s key, .sealed s ∈ net.log → SecretInput secret s.input → s.key = some key →
      ¬ Derives FrameRule (wire known net) (.text key.toList)) ∧
    ∀ text, TaintedText secret text → ¬ Derives FrameRule (wire known net) (.text text) := by
  obtain ⟨hsecure, hunforged⟩ := secure_reaches hknown hreaches
  have hunderivable : ∀ text, TaintedText secret text →
      ¬ Derives FrameRule (wire known net) (.text text) := by
    rintro text ⟨l, hl, htainted⟩
    exact not_derives_hidden (underTaintedKeys secret net)
      (fun v hv => hsecure.not_hidden hknown hv) ⟨l, hl, .tainted htainted⟩
  refine ⟨?_, ?_, ?_, hunderivable⟩
  · exact (network_agreement free _ net hunforged (collisionFree.mono (Set.subset_univ _))
      fun a _ => fresh_sharedKey a).1
  · intro m _ hsecret
    exact hunderivable _ (tainted_sharedKey hsecret)
  · intro s key hs hsecret hkey
    exact hunderivable _ ((hsecure.sent s hs).tainted hsecret key hkey)

/-- All X25519 private keys of an exchange have leaked, and still what its responder opens had
    been sealed by the initiator: the KEM secret is a part of the key. -/
theorem network_withstands_attacker_exchange :
    ∃ (net : Network Letter Nat) (o s : Network.Use Letter),
      .opened o ∈ net.log ∧ .sealed s ∈ net.log ∧ o.view.Matches s.view ∧ s.sealed = o.sealed ∧
        ¬ Derives FrameRule (wire (exchange.knowledge
            {.scalar 1, .scalar 2, .scalar 3, .scalar 4, .scalar 5} ∅) net)
          (.text exchange.key.toList) := by
  have hpart : Part.encapsulation 2 6 ∈ exchange.parts :=
    Exchange.mem_parts.mpr (by simp [exchange])
  have hknown : ∀ v ∈ exchange.knowledge
      {.scalar 1, .scalar 2, .scalar 3, .scalar 4, .scalar 5} ∅,
      Harmless {.encapsulation 2 6} v := by
    intro v hv
    refine Exchange.harmless_knowledge hpart ?_ ?_ (fun v hv => absurd hv (Set.notMem_empty v)) hv
    · simp [Part.Leaked]
    · rintro v (rfl | rfl | rfl | rfl | rfl) <;> simp [Exchange.Private, Exchange.scalars, exchange]
  have hsecret : SecretInput {.encapsulation 2 6} exchange.keyInput :=
    ⟨_, Exchange.letter_mem_keyMaterial hpart, .part rfl⟩
  obtain ⟨net, o, hreaches, ho, hinput⟩ := Network.exists_opened correct correctKem total
    exchange.initiator exchange.responder rfl ⟨rfl, rfl⟩ 5 7 8 6 nonce plaintext
    (Attacked {.encapsulation 2 6} (exchange.knowledge
      {.scalar 1, .scalar 2, .scalar 3, .scalar 4, .scalar 5} ∅))
    (fun _ => trivial) (fun _ _ => trivial)
    (fun net hm => ⟨by
      rintro _ ⟨⟩ l hl
      rw [nonce, Vector.toList_replicate] at hl
      exact ⟨0, List.eq_of_mem_replicate hl⟩,
      fun m hmember hpublic => absurd (hm m hmember ▸ hsecret) hpublic⟩)
    (fun net use s s' chain random huse _ _ => .known (.inr (.inr ⟨use, huse, rfl⟩)))
  obtain ⟨hanswered, -, -, hunderivable⟩ := network_withstands_attacker _ _ hknown net hreaches
  obtain ⟨before, after, hlog⟩ := List.append_of_mem ho
  have hsuffix : (.opened o :: after) <:+ net.log := hlog ▸ List.suffix_append _ _
  obtain ⟨s, hs, hmatch, hsealed, -⟩ := hanswered o after hsuffix (hinput ▸ hsecret)
  exact ⟨net, o, s, ho, hsuffix.subset (List.mem_cons_of_mem _ hs), hmatch, hsealed,
    hunderivable _ (tainted_sharedKey hsecret)⟩

end Quietwire
