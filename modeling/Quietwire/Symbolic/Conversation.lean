/-
  Quietwire.Symbolic.Conversation

  Conversations over the symbolic primitives: one that was started, and one in
  which the responder has opened the first frame of the initiator.
-/
import Quietwire.Symbolic.Primitives
import Quietwire.Ratchet.Exchange

namespace Quietwire
namespace Symbolic

variable {w : World Letter Nat}

/-- The AEAD is unforgeable where a genuine frame is delivered. -/
theorem unforged_of_genuine {naming : Naming} {shared : SecretKey Letter}
    (h : World.Lockstep primitives shared naming w)
    {s : Sealing Letter} (hs : s ∈ w.sealings) (x : Party)
    (generated : Except CryptoError Nat) :
    w.Unforged primitives (.decrypt x s.sealed generated) := by
  intro key plaintext _ hopens
  obtain ⟨key', hkey, hseal⟩ := (h.genuine s hs).sealing
  obtain ⟨rfl, htext⟩ := aeadSeal_inj (aeadOpen_iff.mp hopens) hseal
  exact ⟨s, World.mem_sealings.mp hs, hkey, rfl, rfl, rfl, (Vector.toList_inj.mp htext).symm⟩

theorem exists_start (shared : SecretKey Letter) : ∃ w₀ : World Letter Nat,
    World.start primitives shared 1 2 = .ok w₀ ∧
    (w₀.ratchets.map (publicKey primitives)).Nodup ∧ w₀.ratchets = [2, 1] ∧
    w₀.steps = (fun _ => 0) ∧ w₀.log = [] := by
  have hstarts : ∃ w, World.start primitives shared 1 2 = .ok w ∧ w.ratchets = [2, 1] ∧
      w.steps = (fun _ => 0) ∧ w.log = [] := World.exists_start (correct.contributory 2 1)
  obtain ⟨w₀, hstart, hratchets, hsteps, hlog⟩ := hstarts
  refine ⟨w₀, hstart, ?_, hratchets, hsteps, hlog⟩
  have hne : publicKey primitives 2 ≠ publicKey primitives 1 := by
    rw [ne_eq, publicKey_inj]
    decide
  rw [hratchets]
  simpa using hne

/-- A turn is possible where the AEAD is unforgeable. -/
theorem turn_reaches {naming : Naming} {shared : SecretKey Letter}
    (h : World.Lockstep primitives shared naming w) (t : Turn Letter Nat) :
    World.Reaches primitives w (w.turn primitives t) := by
  rcases w.turn_cases (P := primitives) t with heq | ⟨sealed, s, chain, run, -⟩
  · rw [heq]
    exact .refl
  · have hstep : w.step primitives (.encrypt t.sender (.ok t.nonce) t.plaintext)
        = (w.recordSealing s (World.nextSealing primitives w t.sender chain t.plaintext sealed),
          .sealed (.ok sealed)) := World.encrypt_of_sealed run
    have hunforged : w.Unforged primitives (.encrypt t.sender (.ok t.nonce) t.plaintext) := trivial
    have hsealed : World.Reaches primitives w
        (w.step primitives (.encrypt t.sender (.ok t.nonce) t.plaintext)).1 := .single hunforged
    rw [hstep] at hsealed
    rw [World.turn_of_sealed run]
    exact hsealed.tail (unforged_of_genuine (h.recordSealing run) List.mem_cons_self _ _)

theorem sentIn_start (hlog : w.log = []) (x : Party) (chain : Nat) : w.sentIn x chain = [] := by
  rw [World.sentIn, World.sealings, hlog]
  rfl

/-- The responder has opened the first frame of the initiator. -/
theorem exists_exchange (shared : SecretKey Letter) : ∃ w₀ w : World Letter Nat,
    World.start primitives shared 1 2 = .ok w₀ ∧ World.Reaches primitives w₀ w ∧
    (w.ratchets.map (publicKey primitives)).Nodup ∧ w.openedBy .responder ≠ [] := by
  obtain ⟨w₀, hstart, hdistinct, hratchets, hsteps, hlog⟩ := exists_start shared
  have h : World.Lockstep primitives shared .byLabel w₀ := World.Lockstep.start hstart
  have hempty : ∀ x chain, w₀.sentIn x chain = [] := sentIn_start hlog
  have hahead : w₀.ahead = .initiator := by
    rw [World.ahead, hsteps, if_pos rfl]
  have hhears : ¬ w₀.Deaf .responder := by
    rw [World.Deaf, hempty, hempty]
    simp
  let t : Turn Letter Nat := ⟨.initiator, nonce, plaintext, 3⟩
  obtain ⟨s, sealing, s', o, hturn, -, -, ho, hown⟩ :=
    h.turn_ahead correct total hdistinct t hahead.symm (by rw [hahead]; exact hhears)
  have hafter : (w₀.turn primitives t).ratchets = [3, 2, 1] := by
    rw [hturn, World.ratchets_recordStep, hown, World.ratchets_recordSealing, hratchets]
  have hreceiver : o.receiver = .responder := by
    rw [ho, hahead]
    rfl
  refine ⟨w₀, w₀.turn primitives t, hstart, turn_reaches h t, ?_, ?_⟩
  · rw [hafter]
    simp [publicKey_inj]
  · rw [hturn, ← hreceiver, World.openedBy_recordStep, World.openedBy_recordOpening_self]
    exact List.cons_ne_nil _ _

/-- A session and the frame it sealed open nothing but that frame. -/
theorem opens_sealed_only {s s' : Session Letter Nat} {nonce : Nonce Letter}
    {plaintext opened : Plaintext Letter} {sealed : SealedFrame Letter} {chain : Chain Letter}
    (run : Session.Sealed primitives nonce plaintext s sealed s' chain) {key : Key Letter}
    (hopens : Opens primitives key sealed opened) :
    (kdfChain primitives chain.key).1 = key ∧ opened = plaintext := by
  have hseal := run.sealing
  rw [← run.nonce_eq] at hseal
  obtain ⟨hkey, htext⟩ := aeadSeal_inj (aeadOpen_iff.mp hopens) hseal
  exact ⟨hkey.symm, Vector.toList_inj.mp htext⟩

end Symbolic
end Quietwire
