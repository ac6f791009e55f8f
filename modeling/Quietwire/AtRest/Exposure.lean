/-
  Quietwire.AtRest.Exposure

  What an attacker learns of the key hierarchy, exactly: a DEK is lost with a KEK
  that it was ever wrapped under, if the wrapped DEK was seen; a subkey gives away
  nothing but itself; and no DEK is slipped in under a KEK that is not lost.
-/
import Quietwire.AtRest.Calls
import Quietwire.Symbolic.Primitives

namespace Quietwire
namespace AtRest

variable {α σ : Type} [Octet α] {P : Primitives α σ} {argon2id : Argon2id α}

/-- The hierarchy as free constructors: a subkey tells the DEK and the purpose and is no KEK,
    and an AEAD ciphertext tells the key and the plaintext. -/
structure FreeHierarchy (P : Primitives α σ) (argon2id : Argon2id α) : Prop where
  subkey_inj : ∀ (d e : Dek α) (p q : Purpose), d.subkeyFor P p = e.subkeyFor P q → d = e ∧ p = q
  subkey_ne_kek : ∀ (d : Dek α) (p : Purpose) (password : List α) (salt : Salt α)
    (params : KdfParams) (kek : Kek α), deriveKek argon2id password salt params = .ok kek →
      d.subkeyFor P p ≠ kek.key
  opens_only_sealed : ∀ (key : SecretKey α) (nonce : Nonce α) (aad sealed text : List α),
    aeadOpen P key nonce aad sealed = .ok text → aeadSeal P key nonce aad text = .ok sealed
  committing : ∀ (key key' : SecretKey α) (nonce : Nonce α) (aad text text' sealed : List α),
    aeadSeal P key nonce aad text = .ok sealed → aeadSeal P key' nonce aad text' = .ok sealed →
      key = key' ∧ text = text'

/-! ## Wrapping and unwrapping -/

section Wrapping

variable {dek dek' : Dek α} {kek kek' : Kek α} {random : Option (Nonce α)} {w : WrappedDek α}

/-- A wrapped DEK unwraps to the DEK. -/
theorem unwrap_wrap (correct : CorrectPrimitives P) (h : dek.wrapWith P kek random = .ok w) :
    w.unwrapWith P kek = .ok dek := by
  obtain ⟨-, hseal⟩ := Dek.wrapWith_eq_ok_iff.mp h
  exact WrappedDek.unwrapWith_eq_ok_iff.mpr (correct.opens_sealed _ _ _ _ _ hseal)

/-- What unwraps was wrapped. -/
theorem wrap_of_unwrap (free : FreeHierarchy P argon2id) (h : w.unwrapWith P kek = .ok dek) :
    dek.wrapWith P kek (some w.nonce) = .ok w := by
  have hopen := WrappedDek.unwrapWith_eq_ok_iff.mp h
  exact Dek.wrapWith_eq_ok_iff.mpr ⟨rfl, free.opens_only_sealed _ _ _ _ _ hopen⟩

/-- A wrapped DEK tells the DEK and the KEK. -/
theorem wrap_inj (free : FreeHierarchy P argon2id) {random' : Option (Nonce α)}
    (h : dek.wrapWith P kek random = .ok w) (h' : dek'.wrapWith P kek' random' = .ok w) :
    dek = dek' ∧ kek = kek' := by
  obtain ⟨-, hseal⟩ := Dek.wrapWith_eq_ok_iff.mp h
  obtain ⟨-, hseal'⟩ := Dek.wrapWith_eq_ok_iff.mp h'
  obtain ⟨hkey, htext⟩ := free.committing _ _ _ _ _ _ _ hseal hseal'
  have hdek := Vector.toList_inj.mp htext
  cases dek
  cases dek'
  cases kek
  cases kek'
  exact ⟨congrArg Dek.mk hdek, congrArg Kek.mk hkey⟩

end Wrapping

/-! ## Exposed keys -/

/-- Keys and passwords that are lost by what the attacker has seen. -/
inductive Exposed (P : Primitives α σ) (argon2id : Argon2id α) (h : Holder α) : List α → Prop
  | seen {bytes : List α} (hseen : .text bytes ∈ h.seen) : Exposed P argon2id h bytes
  | subkey {dek : Dek α} (purpose : Purpose) (hdek : Exposed P argon2id h dek.key.toList) :
      Exposed P argon2id h (dek.subkeyFor P purpose).toList
  | deriveKek {password : List α} {salt : Salt α} {params : KdfParams} {kek : Kek α}
      (hkek : deriveKek argon2id password salt params = .ok kek)
      (hpassword : Exposed P argon2id h password) : Exposed P argon2id h kek.key.toList
  | unwrap {r : Wrapping α} (hr : r ∈ h.wrappings) (hown : r.dek ∈ h.own)
      (hseen : .wrapped r.wrapped ∈ h.seen) (hkek : Exposed P argon2id h r.kek.key.toList) :
      Exposed P argon2id h r.dek.key.toList

/-- What is lost stays lost. -/
theorem Exposed.mono {h h' : Holder α} {bytes : List α} (hexposed : Exposed P argon2id h bytes)
    (hown : h.own ⊆ h'.own) (hwrappings : h.wrappings ⊆ h'.wrappings) (hseen : h.seen ⊆ h'.seen) :
    Exposed P argon2id h' bytes := by
  induction hexposed with
  | seen hs => exact .seen (hseen hs)
  | subkey purpose hdek ih => exact .subkey purpose ih
  | deriveKek hkek hpassword ih => exact .deriveKek hkek ih
  | unwrap hr ho hs hkek ih => exact .unwrap (hwrappings hr) (hown ho) (hseen hs) ih

/-- The invariant of an application. -/
structure Sound (P : Primitives α σ) (argon2id : Argon2id α) (h : Holder α) : Prop where
  ownHeld : h.own ⊆ h.deks
  ownAtomic : ∀ d ∈ h.own, Atomic P argon2id d.key
  /-- A KEK comes from a password, or it is no DEK. -/
  kek : ∀ k ∈ h.keks,
    (∃ password salt params, deriveKek argon2id password salt params = .ok k) ∨
      (Atomic P argon2id k.key ∧ ∀ d ∈ h.own, d.key ≠ k.key)
  wrapping : ∀ r ∈ h.wrappings, r.dek ∈ h.deks ∧ r.kek ∈ h.keks ∧
    ∃ random, r.dek.wrapWith P r.kek random = .ok r.wrapped
  seen : ∀ w, .wrapped w ∈ h.seen → ∃ r ∈ h.wrappings, r.wrapped = w
  held : ∀ d ∈ h.deks, d ∈ h.own ∨ Exposed P argon2id h d.key.toList

/-- A text that is not lost, or a wrapped DEK that gives one away. -/
def Withheld (P : Primitives α σ) (argon2id : Argon2id α) (h : Holder α) : Term α → Prop
  | .text bytes => ¬ Exposed P argon2id h bytes
  | .wrapped w => ∃ (dek : Dek α) (kek : Kek α) (random : Option (Nonce α)),
      dek.wrapWith P kek random = .ok w ∧ ¬ Exposed P argon2id h dek.key.toList ∧
        Exposed P argon2id h kek.key.toList

/-- Computing a withheld term takes a withheld term. -/
theorem computes_guarding (free : FreeHierarchy P argon2id) (h : Holder α) :
    Guarding (Computes P argon2id) (Withheld P argon2id h) := by
  intro premises t hrule hwithheld
  cases hrule with
  | subkey dek purpose =>
    exact ⟨_, List.mem_singleton_self _, fun hdek => hwithheld (.subkey purpose hdek)⟩
  | deriveKek hkek =>
    exact ⟨_, List.mem_singleton_self _, fun hpassword => hwithheld (.deriveKek hkek hpassword)⟩
  | @wrapWith dek kek random wrapped hwrap =>
    obtain ⟨dek', kek', random', hwrap', hdek, -⟩ := hwithheld
    obtain ⟨rfl, -⟩ := wrap_inj free hwrap hwrap'
    exact ⟨_, List.mem_cons_self, hdek⟩
  | @unwrapWith dek kek wrapped hunwrap =>
    by_cases hkek : Exposed P argon2id h kek.key.toList
    · exact ⟨_, List.mem_cons_self, dek, kek, _, wrap_of_unwrap free hunwrap, hwithheld, hkek⟩
    · exact ⟨_, List.mem_cons_of_mem _ List.mem_cons_self, hkek⟩

namespace Sound

variable {h : Holder α} (hs : Sound P argon2id h)

include hs

/-- What the attacker computes is lost, and what is lost it computes. -/
theorem learns_iff (free : FreeHierarchy P argon2id) (correct : CorrectPrimitives P)
    {bytes : List α} : h.Learns P argon2id (.text bytes) ↔ Exposed P argon2id h bytes := by
  constructor
  · intro hlearns
    have hnot := Derives.not_guarded (computes_guarding free h) ?_ hlearns
    · exact not_not.mp hnot
    · rintro t ht hwithheld
      cases t with
      | text bytes => exact hwithheld (.seen ht)
      | wrapped w =>
        -- a wrapped DEK that was seen under a lost KEK is lost already
        obtain ⟨r, hr, rfl⟩ := hs.seen w ht
        obtain ⟨hheld, -, random, hwrap⟩ := hs.wrapping r hr
        obtain ⟨dek, kek, random', hwrap', hdek, hkek⟩ := hwithheld
        obtain ⟨rfl, rfl⟩ := wrap_inj free hwrap hwrap'
        rcases hs.held r.dek hheld with hown | hexposed
        · exact hdek (.unwrap hr hown ht hkek)
        · exact hdek hexposed
  · intro hexposed
    induction hexposed with
    | seen hseen => exact .known hseen
    | @subkey dek purpose hdek ih =>
      exact .rule (.subkey dek purpose) (by simpa using ih)
    | deriveKek hkek hpassword ih => exact .rule (.deriveKek hkek) (by simpa using ih)
    | @unwrap r hr hown hseen hkek ih =>
      obtain ⟨-, -, random, hwrap⟩ := hs.wrapping r hr
      refine .rule (.unwrapWith (unwrap_wrap correct hwrap)) ?_
      simp only [List.mem_cons, List.not_mem_nil, or_false, forall_eq_or_imp, forall_eq]
      exact ⟨.known hseen, ih⟩

/-- A wrapped DEK that the attacker computes was stored, or wrapped by itself. -/
theorem wrapped_cases {w : WrappedDek α} (hlearns : h.Learns P argon2id (.wrapped w)) :
    (∃ r ∈ h.wrappings, r.wrapped = w) ∨ ∃ (dek : Dek α) (kek : Kek α) (random : Option (Nonce α)),
      dek.wrapWith P kek random = .ok w ∧ h.Learns P argon2id (.text dek.key.toList) ∧
        h.Learns P argon2id (.text kek.key.toList) := by
  cases hlearns with
  | known hseen => exact .inl (hs.seen w hseen)
  | rule hrule hpremises =>
    cases hrule with
    | @wrapWith dek kek random _ hwrap =>
      exact .inr ⟨dek, kek, random, hwrap, hpremises _ List.mem_cons_self,
        hpremises _ (List.mem_cons_of_mem _ List.mem_cons_self)⟩

/-- What an application reads back unwraps to a DEK that it wrapped, or the attacker knew the
    DEK and the KEK. -/
theorem unwrap_cases (free : FreeHierarchy P argon2id) {w : WrappedDek α} {kek : Kek α}
    {dek : Dek α}
    (hread : (∃ r ∈ h.wrappings, r.wrapped = w) ∨ h.Learns P argon2id (.wrapped w))
    (hunwrap : w.unwrapWith P kek = .ok dek) :
    (∃ r ∈ h.wrappings, r.wrapped = w ∧ r.kek = kek ∧ r.dek = dek) ∨
      (h.Learns P argon2id (.text dek.key.toList) ∧
        h.Learns P argon2id (.text kek.key.toList)) := by
  have hwrap := wrap_of_unwrap free hunwrap
  have hcases : (∃ r ∈ h.wrappings, r.wrapped = w) ∨ _ := hread.elim .inl hs.wrapped_cases
  rcases hcases with ⟨r, hr, rfl⟩ | ⟨dek', kek', random, hwrap', hdek, hkek⟩
  · obtain ⟨-, -, random, hstored⟩ := hs.wrapping r hr
    obtain ⟨hdek, hkek⟩ := wrap_inj free hstored hwrap
    exact .inl ⟨r, hr, rfl, hkek, hdek⟩
  · obtain ⟨rfl, rfl⟩ := wrap_inj free hwrap hwrap'
    exact .inr ⟨hdek, hkek⟩

end Sound

/-! ## Runs -/

section Events

variable {h : Holder α} (hs : Sound P argon2id h)

include hs

/-- A new DEK of its own. -/
theorem Sound.holdOwn {key : SecretKey α} (hatomic : Atomic P argon2id key)
    (hnew : ⟨key⟩ ∉ h.keks) : Sound P argon2id (h.holdOwn (.ok ⟨key⟩)) := by
  have hmono : h.own ⊆ (h.holdOwn (.ok ⟨key⟩)).own := List.subset_cons_self _ _
  refine ⟨?_, ?_, ?_, ?_, hs.seen, ?_⟩
  · exact List.cons_subset_cons _ hs.ownHeld
  · rintro d hd
    rcases List.mem_cons.mp hd with rfl | hd
    · exact hatomic
    · exact hs.ownAtomic d hd
  · intro k hk
    refine (hs.kek k hk).imp_right fun ⟨hkAtomic, hkNew⟩ => ⟨hkAtomic, fun d hd => ?_⟩
    rcases List.mem_cons.mp hd with rfl | hd
    · rintro rfl
      exact hnew hk
    · exact hkNew d hd
  · intro r hr
    obtain ⟨hdek, hkek⟩ := hs.wrapping r hr
    exact ⟨List.mem_cons_of_mem _ hdek, hkek⟩
  · intro d hd
    rcases List.mem_cons.mp hd with rfl | hd
    · exact .inl List.mem_cons_self
    · exact (hs.held d hd).imp (fun hown => hmono hown) fun hexposed =>
        hexposed.mono hmono (List.Subset.refl _) (List.Subset.refl _)

/-- A KEK. -/
theorem Sound.holdKek {kek : Kek α}
    (hkek : (∃ password salt params, deriveKek argon2id password salt params = .ok kek) ∨
      (Atomic P argon2id kek.key ∧ ∀ d ∈ h.own, d.key ≠ kek.key)) :
    Sound P argon2id (h.holdKek (.ok kek)) := by
  refine ⟨hs.ownHeld, hs.ownAtomic, ?_, ?_, hs.seen, ?_⟩
  · rintro k hk
    rcases List.mem_cons.mp hk with rfl | hk
    · exact hkek
    · exact hs.kek k hk
  · intro r hr
    obtain ⟨hdek, hheld, hwrap⟩ := hs.wrapping r hr
    exact ⟨hdek, List.mem_cons_of_mem _ hheld, hwrap⟩
  · intro d hd
    exact (hs.held d hd).imp_right fun hexposed =>
      hexposed.mono (List.Subset.refl _) (List.Subset.refl _) (List.Subset.refl _)

/-- A wrapped DEK. -/
theorem Sound.holdWrapped {dek : Dek α} {kek : Kek α} {random : Option (Nonce α)}
    {w : WrappedDek α} (hdek : dek ∈ h.deks) (hkek : kek ∈ h.keks)
    (hwrap : dek.wrapWith P kek random = .ok w) :
    Sound P argon2id (h.holdWrapped dek kek (.ok w)) := by
  refine ⟨hs.ownHeld, hs.ownAtomic, hs.kek, ?_, ?_, ?_⟩
  · intro r hr
    rcases List.mem_cons.mp hr with rfl | hr
    · exact ⟨hdek, hkek, random, hwrap⟩
    · exact hs.wrapping r hr
  · intro v hv
    obtain ⟨r, hr, hwrapped⟩ := hs.seen v hv
    exact ⟨r, List.mem_cons_of_mem _ hr, hwrapped⟩
  · intro d hd
    exact (hs.held d hd).imp_right fun hexposed =>
      hexposed.mono (List.Subset.refl _) (List.subset_cons_self _ _) (List.Subset.refl _)

/-- A DEK that was read back. -/
theorem Sound.holdUnwrapped (free : FreeHierarchy P argon2id) (correct : CorrectPrimitives P)
    {w : WrappedDek α} {kek : Kek α} {dek : Dek α}
    (hread : (∃ r ∈ h.wrappings, r.wrapped = w) ∨ h.Learns P argon2id (.wrapped w))
    (hunwrap : w.unwrapWith P kek = .ok dek) :
    Sound P argon2id (h.holdUnwrapped (.ok dek)) := by
  have hmono {bytes : List α} (hexposed : Exposed P argon2id h bytes) :
      Exposed P argon2id (h.holdUnwrapped (.ok dek)) bytes :=
    hexposed.mono (List.Subset.refl _) (List.Subset.refl _) (List.Subset.refl _)
  refine ⟨List.subset_cons_of_subset _ hs.ownHeld, hs.ownAtomic, hs.kek, ?_, hs.seen, ?_⟩
  · intro r hr
    obtain ⟨hdek, hkek⟩ := hs.wrapping r hr
    exact ⟨List.mem_cons_of_mem _ hdek, hkek⟩
  · intro d hd
    rcases List.mem_cons.mp hd with rfl | hd
    · rcases hs.unwrap_cases free hread hunwrap with ⟨r, hr, -, -, rfl⟩ | ⟨hlearns, -⟩
      · exact (hs.held r.dek (hs.wrapping r hr).1).imp_right hmono
      · exact .inr (hmono ((hs.learns_iff free correct).mp hlearns))
    · exact (hs.held d hd).imp_right hmono

/-- A term that the attacker sees. -/
theorem Sound.see {t : Term α} (hpossible : h.Possible P argon2id (.see t)) :
    Sound P argon2id { h with seen := t :: h.seen } := by
  refine ⟨hs.ownHeld, hs.ownAtomic, hs.kek, hs.wrapping, ?_, ?_⟩
  · intro w hw
    rcases List.mem_cons.mp hw with rfl | hw
    · exact hpossible
    · exact hs.seen w hw
  · intro d hd
    exact (hs.held d hd).imp_right fun hexposed =>
      hexposed.mono (List.Subset.refl _) (List.Subset.refl _) (List.subset_cons_self _ _)

/-- No possible event breaks the invariant. -/
theorem Sound.step (free : FreeHierarchy P argon2id) (correct : CorrectPrimitives P)
    {event : Event α} (hpossible : h.Possible P argon2id event) :
    Sound P argon2id (h.step P argon2id event).1 := by
  cases event with
  | generate random =>
    cases random with
    | none => exact hs
    | some key =>
      obtain ⟨hatomic, hnew⟩ := hpossible key rfl
      exact hs.holdOwn hatomic hnew
  | dekFrom key => exact hs.holdOwn hpossible.1 hpossible.2
  | kekFrom key =>
    refine hs.holdKek (.inr ⟨hpossible.1, ?_⟩)
    rintro ⟨key'⟩ hd rfl
    exact hpossible.2 hd
  | deriveKek password salt params =>
    rw [Holder.step]
    cases hkek : AtRest.deriveKek argon2id password salt params with
    | error e => exact hs
    | ok kek => exact hs.holdKek (.inl ⟨password, salt, params, hkek⟩)
  | wrapWith dek kek random =>
    rw [Holder.step]
    cases hwrap : dek.wrapWith P kek random with
    | error e => exact hs
    | ok w => exact hs.holdWrapped hpossible.1 hpossible.2 hwrap
  | unwrapWith w kek =>
    rw [Holder.step]
    cases hunwrap : w.unwrapWith P kek with
    | error e => exact hs
    | ok dek => exact hs.holdUnwrapped free correct hpossible.2 hunwrap
  | subkey dek purpose => exact hs
  | see t => exact hs.see hpossible

end Events

section Exact

variable {h : Holder α} (hs : Sound P argon2id h)

include hs

end Exact

section Symbolic

open Symbolic (Letter code padded primitives)

end Symbolic

end AtRest
end Quietwire
