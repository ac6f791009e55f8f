/-
  Quietwire.AtRest.Calls

  An application that calls the key hierarchy in any order, and an attacker that
  gets to see keys, passwords and wrapped DEKs as it goes along, and that may
  replace the wrapped DEK which the application reads back.
-/
import Quietwire.AtRest.Hierarchy
import Quietwire.Support.Derivation
import Quietwire.Support.Machine

namespace Quietwire
namespace AtRest

variable {α σ : Type}

/-! ## The calls of an application -/

/-- A DEK that the application wrapped, and what `wrap_with` returned. -/
structure Wrapping (α : Type) where
  dek : Dek α
  kek : Kek α
  wrapped : WrappedDek α

/-- What an attacker can hold: the bytes of a key or of a password, and a wrapped DEK. -/
inductive Term (α : Type) where
  | text (bytes : List α)
  | wrapped (wrapped : WrappedDek α)

/-- The keys that an application holds, and what an attacker has seen. -/
structure Holder (α : Type) where
  keks : List (Kek α)
  deks : List (Dek α)
  /-- The DEKs that were generated, or made from a key. -/
  own : List (Dek α)
  wrappings : List (Wrapping α)
  seen : List (Term α)

/-- `kekFrom` and `dekFrom` are the `From` implementations. -/
inductive Event (α : Type) where
  | generate (random : Option (SecretKey α))
  | dekFrom (key : SecretKey α)
  | kekFrom (key : SecretKey α)
  | deriveKek (password : List α) (salt : Salt α) (params : KdfParams)
  | wrapWith (dek : Dek α) (kek : Kek α) (random : Option (Nonce α))
  | unwrapWith (wrapped : WrappedDek α) (kek : Kek α)
  | subkey (dek : Dek α) (purpose : Purpose)
  | see (term : Term α)

inductive Outcome (α : Type) where
  | dek (result : Except CryptoError (Dek α))
  | kek (result : Except CryptoError (Kek α))
  | wrapped (result : Except Failure (WrappedDek α))
  | subkey (result : Except CryptoError (SecretKey α))
  | seen

variable [Octet α] (P : Primitives α σ) (argon2id : Argon2id α)

namespace Holder

omit [Octet α] in
def start : Holder α := ⟨[], [], [], [], []⟩

omit [Octet α] in
def holdOwn (h : Holder α) : Except CryptoError (Dek α) → Holder α
  | .ok dek => { h with deks := dek :: h.deks, own := dek :: h.own }
  | .error _ => h

omit [Octet α] in
def holdKek (h : Holder α) : Except CryptoError (Kek α) → Holder α
  | .ok kek => { h with keks := kek :: h.keks }
  | .error _ => h

omit [Octet α] in
def holdUnwrapped (h : Holder α) : Except CryptoError (Dek α) → Holder α
  | .ok dek => { h with deks := dek :: h.deks }
  | .error _ => h

omit [Octet α] in
def holdWrapped (h : Holder α) (dek : Dek α) (kek : Kek α) :
    Except Failure (WrappedDek α) → Holder α
  | .ok wrapped => { h with wrappings := ⟨dek, kek, wrapped⟩ :: h.wrappings }
  | .error _ => h

def step (h : Holder α) : Event α → Holder α × Outcome α
  | .generate random => (h.holdOwn (Dek.generate random), .dek (Dek.generate random))
  | .dekFrom key => (h.holdOwn (.ok ⟨key⟩), .dek (.ok ⟨key⟩))
  | .kekFrom key => (h.holdKek (.ok ⟨key⟩), .kek (.ok ⟨key⟩))
  | .deriveKek password salt params =>
    let result := AtRest.deriveKek argon2id password salt params
    (h.holdKek result, .kek result)
  | .wrapWith dek kek random =>
    let result := dek.wrapWith P kek random
    (h.holdWrapped dek kek result, .wrapped result)
  | .unwrapWith wrapped kek =>
    let result := wrapped.unwrapWith P kek
    (h.holdUnwrapped result, .dek result)
  | .subkey dek purpose => (h, .subkey (dek.subkey P purpose))
  | .see term => ({ h with seen := term :: h.seen }, .seen)

end Holder

/-! ## The attacker -/

/-- What the attacker can compute: everything in the hierarchy is public but the keys and the
    passwords. -/
inductive Computes : List (Term α) → Term α → Prop
  | subkey (dek : Dek α) (purpose : Purpose) :
      Computes [.text dek.key.toList] (.text (dek.subkeyFor P purpose).toList)
  | deriveKek {password : List α} {salt : Salt α} {params : KdfParams} {kek : Kek α}
      (h : AtRest.deriveKek argon2id password salt params = .ok kek) :
      Computes [.text password] (.text kek.key.toList)
  | wrapWith {dek : Dek α} {kek : Kek α} {random : Option (Nonce α)} {wrapped : WrappedDek α}
      (h : dek.wrapWith P kek random = .ok wrapped) :
      Computes [.text dek.key.toList, .text kek.key.toList] (.wrapped wrapped)
  | unwrapWith {dek : Dek α} {kek : Kek α} {wrapped : WrappedDek α}
      (h : wrapped.unwrapWith P kek = .ok dek) :
      Computes [.wrapped wrapped, .text kek.key.toList] (.text dek.key.toList)

/-- The attacker computes the term from what it has seen. -/
abbrev Holder.Learns (h : Holder α) : Term α → Prop :=
  Derives (Computes P argon2id) { t | t ∈ h.seen }

/-- A key that the hierarchy itself does not give out. -/
structure Atomic (key : SecretKey α) : Prop where
  ne_subkey : ∀ (dek : Dek α) (purpose : Purpose), key ≠ dek.subkeyFor P purpose
  ne_kek : ∀ (password : List α) (salt : Salt α) (params : KdfParams) (kek : Kek α),
    deriveKek argon2id password salt params = .ok kek → key ≠ kek.key

/-- What an application does, and what can happen to it: the keys that it draws are new, it
    uses the keys that it holds, it reads back a wrapped DEK of its own or one that the
    attacker made, and the attacker sees any key or password and what is stored. -/
def Holder.Possible (h : Holder α) : Event α → Prop
  | .generate random => ∀ key ∈ random, Atomic P argon2id key ∧ ⟨key⟩ ∉ h.keks
  | .dekFrom key => Atomic P argon2id key ∧ ⟨key⟩ ∉ h.keks
  | .kekFrom key => Atomic P argon2id key ∧ ⟨key⟩ ∉ h.own
  | .deriveKek _ _ _ => True
  | .wrapWith dek kek _ => dek ∈ h.deks ∧ kek ∈ h.keks
  | .unwrapWith wrapped kek => kek ∈ h.keks ∧
      ((∃ r ∈ h.wrappings, r.wrapped = wrapped) ∨ h.Learns P argon2id (.wrapped wrapped))
  | .subkey dek _ => dek ∈ h.deks
  | .see (.text _) => True
  | .see (.wrapped wrapped) => ∃ r ∈ h.wrappings, r.wrapped = wrapped

/-- Reached by possible events. -/
abbrev Holder.Reaches : Holder α → Holder α → Prop :=
  Machine.Reaches (Holder.step P argon2id) (Holder.Possible P argon2id)

end AtRest
end Quietwire
