/-
  Quietwire.Fuzz.Stepping

  No step of a conversation fails, and each keeps it in step with its `World`.
-/
import Quietwire.Fuzz.Tracking

namespace Quietwire
namespace Fuzz

variable {α σ : Type} [DecidableEq α] [Octet α] {P : Primitives α σ}

namespace Conversation

omit [DecidableEq α] [Octet α] in
theorem session_with (c : Conversation α σ) (received : Bool) (sent : UInt32) (x : Party) :
    Conversation.session { c with bobHasReceived := received, sent } x = c.session x := by
  cases x <;> rfl

omit [DecidableEq α] [Octet α] in
theorem inbox_with (c : Conversation α σ) (received : Bool) (sent : UInt32) (x : Party) :
    Conversation.inbox { c with bobHasReceived := received, sent } x = c.inbox x := by
  cases x <;> rfl

end Conversation

/-! ## One step -/

/-- A step leads from `c` to `c'`, and from the state `w` of the conversation to `v`. -/
structure Moved (P : Primitives α σ) (c : Conversation α σ) (w : World α σ) (random : Random α σ)
    (c' : Conversation α σ) (v : World α σ) : Prop where
  shadows : Shadows P c' v
  follows : Follows w random v
  sent : c'.sent.toNat ≤ c.sent.toNat + 1

variable {c : Conversation α σ} {w : World α σ} {random : Random α σ}
  {rest : List (Random α σ)} {x : Party}

omit [DecidableEq α] [Octet α] in
theorem Follows.refl (w : World α σ) (random : Random α σ) : Follows w random w :=
  ⟨.inl rfl, .inl rfl⟩

namespace Shadows

variable (h : Shadows P c w)
include h

/-- The session of a refused call is what it was. -/
theorem refused (x : Party) (random : Random α σ) :
    Moved P c w random (c.setSession x (w.session x)) w where
  shadows := by
    refine ⟨h.steady, fun y => ?_, fun y => ?_, ?_, ?_⟩
    · rw [Conversation.session_setSession]
      split
      · next heq => rw [heq]
      · exact h.session y
    · rw [Conversation.inbox_setSession]
      exact h.inbox y
    · rw [Conversation.bobHasReceived_setSession]
      exact h.received
    · rw [Conversation.sent_setSession]
      exact h.sent
  follows := .refl w random
  sent := by
    rw [Conversation.sent_setSession]
    exact Nat.le_succ _

section Delivering

variable (free : FreeKdf P) (fresh : FreshSharedKey P Fuzz.sharedKey)
  (correct : CorrectPrimitives P) (lengths : TagRemoved P) (hfresh : Fresh P w (random :: rest))
include free fresh correct hfresh

omit free fresh correct in
/-- The conversation after a frame was opened. -/
theorem admitted {index : Nat} {frame : InFlight α} {s : Sealing α} {v : World α σ}
    (hindex : (w.sentTo x)[index]? = some s) (htracks : Tracks w x frame s)
    (a : w.Admitted x s random.ratchet v) (hsteady : World.Steady P Fuzz.sharedKey v) :
    Shadows P { (c.setSession x (v.session x)).setInbox x
        ((c.inbox x).set index { frame with opened := true }) with
      bobHasReceived := c.bobHasReceived || x = .responder } v := by
  have hmem := (World.mem_sentTo.mp (List.mem_of_getElem? hindex)).1
  have hsentTo (y : Party) : v.sentTo y = w.sentTo y := by
    rw [World.sentTo, a.sealings, World.sentTo]
  have hkept (y : Party) (u : Sealing α) (hu : u ∈ w.sentTo y) (hne : y = x → u ≠ s)
      (f : InFlight α) (hf : Tracks w y f u) : Tracks v y f u := by
    refine ⟨hf.sealed, hf.plaintext, hf.opened.trans ?_⟩
    rw [a.mem_unopened]
    refine (and_iff_left fun heq hsealed => hne heq ?_).symm
    exact World.eq_of_nonce hfresh.nodup_nonces (World.mem_sentTo.mp hu).1 hmem (by rw [hsealed])
  refine ⟨hsteady, fun y => ?_, fun y => ?_, ?_, ?_⟩
  · rw [Conversation.session_with, Conversation.session_setInbox, Conversation.session_setSession]
    rcases x.eq_or_eq_peer y with rfl | rfl
    · rw [if_pos rfl]
    · rw [if_neg x.peer_ne, h.session, a.sessionElse]
  · rw [Conversation.inbox_with, Conversation.inbox_setInbox, Conversation.inbox_setSession,
      hsentTo]
    rcases x.eq_or_eq_peer y with rfl | rfl
    · rw [if_pos rfl]
      refine Paired.set (h.inbox y) (World.nodup_sentTo hfresh.nodup_nonces) hindex
        ⟨htracks.sealed, htracks.plaintext, ?_⟩
        fun f u hu hne hf => hkept y u hu (fun _ => hne) f hf
      refine iff_of_false Bool.noConfusion fun hunopened => ?_
      exact (((a.mem_unopened y s).mp hunopened).2 rfl) rfl
    · rw [if_neg x.peer_ne]
      exact Paired.imp_of_mem (h.inbox _) fun f u hu hf =>
        hkept _ u hu (fun heq => absurd heq x.peer_ne) f hf
  · rw [Bool.or_eq_true, decide_eq_true_iff, h.received]
    cases x with
    | initiator =>
      have hsteps : v.steps .responder = w.steps .responder := a.stepsElse
      rw [hsteps]
      exact or_iff_left Party.noConfusion
    | responder =>
      obtain ⟨o, -, hopened⟩ := a.openedBy_self
      exact iff_of_true (.inr rfl) (World.Steady.steps_pos hsteady.lockstep (by simp [hopened]))
  · show v.sealings.length ≤ ((c.setSession x _).setInbox x _).sent.toNat
    rw [a.sealings, Conversation.sent_setInbox, Conversation.sent_setSession]
    exact h.sent

include lengths in
/-- A picked frame opens to its plaintext if it is new, and is refused as not authentic if it
    has been opened. -/
theorem deliverAt {index : Nat} {frame : InFlight α} (hframe : (c.inbox x)[index]? = some frame)
    (hunforged : w.Unforged P (.decrypt x frame.sealed (.ok random.ratchet))) :
    ∃ c', c.deliverAt P x index random = .ok c' ∧
      Moved P c w random c' (w.step P (.decrypt x frame.sealed (.ok random.ratchet))).1 := by
  obtain ⟨s, hindex, htracks⟩ := Paired.getElem? (h.inbox x) hframe
  obtain ⟨hmem, hsender⟩ := World.mem_sentTo.mp (List.mem_of_getElem? hindex)
  rw [htracks.sealed] at hunforged ⊢
  cases hopened : frame.opened with
  | true =>
    have hreplay : s.sealed ∈ (w.openedBy x).map Opening.sealed := by
      by_contra hnot
      have hfalse := htracks.opened.mpr (World.mem_unopened.mpr ⟨hmem, hsender, hnot⟩)
      rw [hopened] at hfalse
      cases hfalse
    have hstep := h.steady.refuses_replay free fresh correct lengths hmem hsender hreplay hunforged
    have hcall : call (Session.decrypt P frame.sealed (.ok random.ratchet)) (c.session x)
        = .ok (.error (.crypto .authentication), w.session x) := by
      rw [htracks.sealed, h.session]
      exact call_of_error (World.decrypt_eq_error hstep)
    rw [hstep]
    refine ⟨c.setSession x (w.session x), ?_, h.refused x random⟩
    simp only [Conversation.deliverAt, hframe, hcall, hopened, bind, Except.bind, pure,
      Except.pure, if_true]
  | false =>
    have hunopened := htracks.opened.mp hopened
    obtain ⟨v, hstep, a, hsteady⟩ :=
      h.steady.admits free fresh correct hunopened hfresh.ratchet
    have hcall : call (Session.decrypt P frame.sealed (.ok random.ratchet)) (c.session x)
        = .ok (.ok frame.plaintext, v.session x) := by
      rw [htracks.sealed, htracks.plaintext, h.session]
      exact call_of_ok (World.decrypt_eq_ok hstep)
    rw [hstep]
    refine ⟨_, ?_, h.admitted hfresh hindex htracks a hsteady, ⟨?_, a.ratchets_cases⟩, ?_⟩
    · simp only [Conversation.deliverAt, hframe, hcall, hopened, bind, Except.bind, pure,
        Except.pure, if_false, Bool.false_eq_true, ne_eq, not_true_eq_false,
        Conversation.inbox_setSession, Conversation.bobHasReceived_setSession]
    · exact .inl (by rw [World.nonces, a.sealings, World.nonces])
    · show ((c.setSession x _).setInbox x _).sent.toNat ≤ _
      rw [Conversation.sent_setInbox, Conversation.sent_setSession]
      exact Nat.le_succ _

end Delivering

/-- A tampered frame is refused. -/
theorem tamper (lengths : TagRemoved P) (hfresh : Fresh P w (random :: rest)) {index : Nat}
    {frame : InFlight α} (hframe : (c.inbox x)[index]? = some frame) {byte : Fin sealedLen}
    {xor : UInt8} (hxor : xor ≠ 0)
    (hunforged : w.Unforged P
      (.decrypt x (tampered frame.sealed byte xor) (.ok random.ratchet))) :
    ∃ e, w.step P (.decrypt x (Fuzz.tampered frame.sealed byte xor) (.ok random.ratchet))
      = (w, .opened (.error (.error e))) := by
  obtain ⟨s, hindex, htracks⟩ := Paired.getElem? (h.inbox x) hframe
  obtain ⟨hmem, -⟩ := World.mem_sentTo.mp (List.mem_of_getElem? hindex)
  rw [htracks.sealed] at hunforged ⊢
  exact World.Steady.refuses_foreign lengths
    (tampered_foreign h.steady hfresh.nodup_nonces hmem byte hxor) hunforged

section Sending

variable (hroom : c.sent.toNat < 1000)
include hroom

omit [DecidableEq α] [Octet α] h in
theorem sent_succ : (c.sent + 1).toNat = c.sent.toNat + 1 := by
  rw [UInt32.toNat_add]
  show (c.sent.toNat + 1) % 2 ^ 32 = _
  omega

theorem counted : Shadows P { c with sent := c.sent + 1 } w where
  steady := h.steady
  session y := (c.session_with _ _ y).trans (h.session y)
  inbox y := by
    rw [Conversation.inbox_with]
    exact h.inbox y
  received := h.received
  sent := by
    show w.sealings.length ≤ (c.sent + 1).toNat
    rw [sent_succ hroom]
    exact h.sent.trans (Nat.le_succ _)

/-- The conversation after a frame was sealed. -/
theorem sealed (hfresh : Fresh P w (random :: rest)) {s' : Session α σ} {sealing : Sealing α}
    (hsender : sealing.sender = x) (hnonce : sealing.sealed.nonce = random.nonce)
    (hsteady : World.Steady P Fuzz.sharedKey (w.recordSealing s' sealing)) :
    Moved P c w random
      (({ c with sent := c.sent + 1 }.setSession x s').setInbox x.peer
        (c.inbox x.peer ++ [InFlight.mk sealing.sealed sealing.plaintext false]))
      (w.recordSealing s' sealing) := by
  subst hsender
  -- a frame with the new nonce is the new one
  have hnew (s : Sealing α) (hs : s ∈ w.sealings) : s.sealed ≠ sealing.sealed := fun heq =>
    hfresh.nonce (hnonce ▸ heq ▸ List.mem_map_of_mem (f := fun s => s.sealed.nonce) hs)
  have hkept (y : Party) (u : Sealing α) (hu : u ∈ w.sentTo y) (f : InFlight α)
      (hf : Tracks w y f u) : Tracks (w.recordSealing s' sealing) y f u := by
    refine ⟨hf.sealed, hf.plaintext, hf.opened.trans ?_⟩
    rw [World.mem_unopened_recordSealing]
    refine (or_iff_left fun hself => ?_).symm
    exact hnew u (World.mem_sentTo.mp hu).1 (by rw [hself.1])
  refine ⟨⟨hsteady, fun y => ?_, fun y => ?_, ?_, ?_⟩, ⟨.inr ?_, .inl rfl⟩, ?_⟩
  · rw [Conversation.session_setInbox, Conversation.session_setSession, Conversation.session_with]
    split
    · next heq => rw [heq, World.session_recordSealing_self]
    · next hne => rw [World.session_recordSealing_of_ne _ _ _ hne, h.session]
  · rw [Conversation.inbox_setInbox, Conversation.inbox_setSession, Conversation.inbox_with,
      World.sentTo_recordSealing]
    have hold := Paired.imp_of_mem (h.inbox y) fun f u hu hf => hkept y u hu f hf
    split
    · next heq =>
      subst heq
      refine List.rel_append hold (.cons ⟨rfl, rfl, ?_⟩ .nil)
      exact iff_of_true rfl (h.steady.unopened_recordSealing s' (hnonce ▸ hfresh.nonce))
    · exact hold
  · rw [Conversation.bobHasReceived_setInbox, Conversation.bobHasReceived_setSession]
    exact h.received
  · rw [Conversation.sent_setInbox, Conversation.sent_setSession, sent_succ hroom]
    exact Nat.succ_le_succ h.sent
  · rw [World.nonces, World.sealings_recordSealing, List.map_cons, hnonce, World.nonces]
  · rw [Conversation.sent_setInbox, Conversation.sent_setSession, sent_succ hroom]

/-- A party seals a frame, unless it is a responder that has received nothing. -/
theorem send (total : TotalSealing P) (hfresh : Fresh P w (random :: rest)) :
    ∃ c', c.send P x random = .ok c' ∧ Moved P c w random c'
      (w.step P (.encrypt x (.ok random.nonce) (Conversation.numberedPlaintext c.sent))).1 := by
  have hadd : checkedAdd c.sent 1 = some (c.sent + 1) := checkedAdd_one_of_lt (by omega)
  by_cases hblocked : x = .responder ∧ c.bobHasReceived = false
  · obtain ⟨rfl, hreceived⟩ := hblocked
    have hfirst : w.steps .responder = 0 := by
      by_contra hpos
      have htrue := h.received.mpr (Nat.one_le_iff_ne_zero.mpr hpos)
      rw [hreceived] at htrue
      cases htrue
    have hstep := h.steady.blocked hfirst random.nonce (Conversation.numberedPlaintext c.sent)
    have hcall : call (Session.encrypt P (.ok random.nonce) (Conversation.numberedPlaintext c.sent))
        (c.session .responder) = .ok (.error .sendingBlocked, w.session .responder) := by
      rw [h.session]
      exact call_of_error (World.encrypt_eq_error hstep)
    rw [hstep]
    refine ⟨{ c with sent := c.sent + 1 }.setSession .responder (w.session .responder), ?_,
      ((h.counted hroom).refused .responder random).shadows, .refl w random, ?_⟩
    · simp only [Conversation.send, hadd, hcall, hreceived, bind, Except.bind, pure, Except.pure,
        Conversation.bobHasReceived_setSession, and_self, if_true]
    · rw [Conversation.sent_setSession, sent_succ hroom]
  · have hstarted : 1 ≤ w.sendingChain x := by
      cases x with
      | initiator => exact Nat.succ_pos _
      | responder =>
        exact h.received.mp (Bool.eq_true_of_not_eq_false fun hfalse => hblocked ⟨rfl, hfalse⟩)
    obtain ⟨s', sealing, hstep, hsender, hplaintext, hnonce, hsteady⟩ := h.steady.seals total
      hstarted (Nat.lt_of_le_of_lt h.sent hroom) random.nonce
      (Conversation.numberedPlaintext c.sent)
    have hcall : call (Session.encrypt P (.ok random.nonce) (Conversation.numberedPlaintext c.sent))
        (c.session x) = .ok (.ok sealing.sealed, s') := by
      have hsession := call_of_ok (World.encrypt_eq_ok hstep)
      rw [← hsender, World.session_recordSealing_self] at hsession
      rw [h.session, ← hsender]
      exact hsession
    rw [hstep]
    refine ⟨_, ?_, h.sealed hroom hfresh hsender hnonce hsteady⟩
    simp only [Conversation.send, hadd, hcall, hblocked, hplaintext, bind, Except.bind, pure,
      Except.pure, Conversation.bobHasReceived_setSession, if_false,
      Conversation.inbox_setSession, Conversation.inbox_with]

end Sending

end Shadows

end Fuzz
end Quietwire
