/-
  Quietwire.Ratchet.Agreement

  Two properties of every state that a conversation reaches: the DH ratchets of
  the two sessions are in lockstep, and every opened frame was sealed by the peer
  and is opened once.
-/
import Quietwire.Ratchet.Ahead
import Quietwire.Symbolic.Conversation
import Mathlib.Data.List.Perm.Subperm

namespace Quietwire

variable {α σ : Type} [DecidableEq α] [Octet α] {P : Primitives α σ} {sharedKey : SecretKey α}
  {naming : Naming}

/-! ## DH ratchet lockstep -/

/-- The DH ratchets are in lockstep: the numbers of steps differ by at most one; one more
    `kdf_root` takes the party behind to the root key and the sending chain of the party
    ahead; the party ahead has the ratchet key of the other and its chain, position by
    position; and an unopened frame is in a chain its receiver has seen or in the next. -/
theorem ratchet_lockstep (free : FreeKdf P) (fresh : FreshSharedKey P sharedKey)
    (hcommute : ∀ a b, P.x25519 a (publicKey P b) = P.x25519 b (publicKey P a))
    {signedPrekey ownRatchet : σ} {w₀ w : World α σ}
    (hstart : World.start P sharedKey signedPrekey ownRatchet = .ok w₀)
    (hreaches : World.Reaches P w₀ w) :
    (w.steps .responder = w.steps .initiator ∨
      w.steps .responder = w.steps .initiator + 1) ∧
    (∃ start, w.chainStart w.ahead = some start ∧
      kdfRoot P (w.session w.ahead.peer).rootKey (w.session w.ahead.peer).ownRatchet
          (publicKey P (w.session w.ahead).ownRatchet)
        = .ok ((w.session w.ahead).rootKey, start)) ∧
    (w.session w.ahead).remoteRatchet
      = some (publicKey P (w.session w.ahead.peer).ownRatchet) ∧
    (∀ receiving, (w.session w.ahead).receiving = some receiving →
      ∃ start sending, w.chainStart w.ahead.peer = some start ∧
        (w.session w.ahead.peer).sending = some sending ∧
        sending.key = chainKeyAt P start sending.next.toNat ∧
        receiving.next ≤ sending.next ∧
        ∀ n, receiving.next.toNat ≤ n →
          chainKeyAt P receiving.key (n - receiving.next.toNat) = chainKeyAt P start n) ∧
    (∀ s ∈ w.sealings, s.sealed ∉ (w.openedBy s.sender.peer).map Opening.sealed →
      s.chain < w.steps s.sender.peer ∨
      (s.chain = w.steps s.sender.peer ∧
        (w.session s.sender.peer).remoteRatchet = some s.header.ratchet) ∨
      (s.chain = w.steps s.sender.peer + 1 ∧ s.sender = w.ahead ∧
        s.header.ratchet = publicKey P (w.session w.ahead).ownRatchet)) := by
  have h := (World.Lockstep.start hstart).reaches free fresh hreaches
  -- the party that is ahead has taken the last step; the other one's keys lie one era back
  obtain ⟨hsteps, hnext⟩ := h.steps_ahead
  obtain ⟨hratchets, hbehindEra⟩ := h.ratchets_eq
  have hahead := h.synced w.ahead
  have hbehind := h.synced w.ahead.peer
  have hnewest := h.newest_ahead
  refine ⟨h.turn, ?_, ?_, ?_, ?_⟩
  -- the root key is one `kdfRoot` past the other's
  · obtain ⟨start, hstartKey, hkeys⟩ := h.kdfRoot_behind hcommute
    refine ⟨start, ?_, ?_⟩
    · rw [hahead.chainStart, hnewest, hstartKey]
    · rw [hahead.rootKey, hnewest]
      exact hkeys
  · rw [hahead.remote, hsteps, hbehindEra]
    rfl
  -- a receiving chain is the peer's sending chain, from the position that was reached
  · intro receiving hreceiving
    obtain ⟨start, hstartKey, hchain, hposition⟩ := h.receiving_eq hreceiving
    rw [hsteps] at hstartKey
    have hsending := hbehind.sending
    rw [hstartKey, Option.map_some] at hsending
    have hlen := h.length_sentIn_le w.ahead.peer (w.sendingChain w.ahead.peer)
    have hle := hahead.received_le
    rw [hsteps] at hle
    refine ⟨start, _, by rw [hbehind.chainStart, hstartKey], hsending, ?_, ?_, ?_⟩
    · rw [chainAt, toNat_ofNat_of_le hlen]
    · rw [UInt32.le_iff_toNat_le, hposition, chainAt, toNat_ofNat_of_le hlen]
      exact hle
    · intro n hn
      have hkey : receiving.key = chainKeyAt P start receiving.next.toNat := by
        rw [hposition, hchain, chainAt]
      rw [hkey, ← chainKeyAt_add, Nat.add_sub_cancel' hn]
  -- a frame in flight is of a chain that is past, received now, or one step ahead
  · intro s hs hunopened
    have hgenuine := h.genuine s hs
    have hchain := hgenuine.chain_le
    have hseen := (h.steps_le s.sender.peer).2
    rw [Party.peer_peer] at hseen
    rcases Nat.lt_or_ge s.chain (w.steps s.sender.peer) with hlt | hge
    · exact .inl hlt
    rcases Nat.eq_or_lt_of_le hge with heq | hgt
    · refine .inr (.inl ⟨heq.symm, ?_⟩)
      rw [(h.synced s.sender.peer).remote, Party.peer_peer, heq]
      exact hgenuine.ratchet
    · have hlast : s.chain = w.steps s.sender.peer + 1 := by omega
      -- the party behind seals in no chain that its peer has not stepped to
      have hsender : s.sender = w.ahead := by
        rcases Party.eq_or_eq_peer w.ahead s.sender with heq | heq
        · exact heq
        · rw [heq] at hchain hgt
          rw [Party.peer_peer] at hgt
          omega
      refine .inr (.inr ⟨hlast, hsender, ?_⟩)
      have hratchet := hgenuine.ratchet
      have hchainEq : s.chain = w.sendingChain w.ahead := by
        rw [hnext, hlast, hsender]
      rw [hsender, hchainEq, hahead.era, List.head?_cons, Option.map_some] at hratchet
      exact (Option.some.inj hratchet).symm

/-- The party ahead after the responder has opened the first frame of the initiator. -/
theorem ratchet_lockstep_symbolic : ∃ w : World Symbolic.Letter Nat,
    w.openedBy .responder ≠ [] ∧ (w.session w.ahead).remoteRatchet
      = some (publicKey Symbolic.primitives (w.session w.ahead.peer).ownRatchet) := by
  obtain ⟨w₀, w, hstart, hreaches, -, hopened⟩ :=
    Symbolic.exists_exchange Symbolic.sharedKey
  have hlockstep := ratchet_lockstep Symbolic.free Symbolic.fresh Symbolic.x25519_commutes hstart
    hreaches
  exact ⟨w, hopened, hlockstep.2.2.1⟩

/-! ## Injective agreement -/

/-- The call `s` of the peer returned the frame that `o` opened, with that plaintext. -/
def Sealing.Answers (s : Sealing α) (o : Opening α) : Prop :=
  s.sender = o.receiver.peer ∧ s.sealed = o.sealed ∧ s.plaintext = o.plaintext

/-- Every opened frame was sealed before. -/
def Agreed (log : List (Record α)) : Prop :=
  ∀ o before, (.opened o :: before) <:+ log → ∃ s, .sealed s ∈ before ∧ s.Answers o

omit [DecidableEq α] [Octet α] in
theorem Agreed.sealed {log : List (Record α)} (h : Agreed log) (s : Sealing α) :
    Agreed (.sealed s :: log) := by
  intro o before hsuffix
  rcases List.suffix_cons_iff.mp hsuffix with heq | hold
  · cases heq
  · exact h o before hold

omit [DecidableEq α] [Octet α] in
theorem Agreed.opened {log : List (Record α)} (h : Agreed log) {o : Opening α}
    {s : Sealing α} (hs : .sealed s ∈ log) (ho : s.Answers o) : Agreed (.opened o :: log) := by
  intro o' before hsuffix
  rcases List.suffix_cons_iff.mp hsuffix with heq | hold
  · obtain ⟨hrecord, rfl⟩ := List.cons_eq_cons.mp heq
    obtain rfl := Record.opened.inj hrecord
    exact ⟨s, hs, ho⟩
  · exact h o' before hold

namespace World

variable {w : World α σ}

omit [DecidableEq α] in
theorem Origin.answers {o : Opening α} {t : Sealing α} (h : w.Origin naming o t) : t.Answers o :=
  ⟨h.sender, h.sealed_eq, h.plaintext_eq⟩

theorem agreed_step (h : Lockstep P sharedKey .byKey w) (free : FreeKdf P)
    (fresh : FreshSharedKey P sharedKey) (hagreed : Agreed w.log) (event : Event α σ)
    (hunforged : w.Unforged P event) : Agreed (w.step P event).1.log := by
  cases hw : w.step P event with
  | mk w' output =>
    have htransition := w.step_transition (P := P) event
    rw [hw] at htransition
    cases htransition with
    | refusedSealing => exact hagreed
    | refusedOpening => exact hagreed
    | sealed run => exact hagreed.sealed _
    | opened run stays =>
      obtain ⟨t, ht⟩ := h.origin free fresh hunforged run
      exact hagreed.opened (mem_sealings.mp ht.mem) ht.answers
    | stepped run steps =>
      obtain ⟨t, ht⟩ := h.origin free fresh hunforged run
      exact hagreed.opened (mem_sealings.mp ht.mem) ht.answers

theorem agreed_reaches {w₀ : World α σ} (free : FreeKdf P) (fresh : FreshSharedKey P sharedKey)
    (hreaches : World.Reaches P w₀ w) (h : Lockstep P sharedKey .byKey w₀)
    (hagreed : Agreed w₀.log) : Agreed w.log := by
  have hboth := hreaches.invariant (I := fun v => Lockstep P sharedKey .byKey v ∧ Agreed v.log)
    (fun v event hv hunforged =>
      ⟨hv.1.step (hv.1.distinct_byKey free fresh) event (hv.1.traced free fresh event hunforged),
        agreed_step hv.1 free fresh hv.2 event hunforged⟩) ⟨h, hagreed⟩
  exact hboth.2

omit [DecidableEq α] in
/-- Each opening of `x` is answered by a different sealing. -/
theorem Lockstep.exists_origins (h : Lockstep P sharedKey naming w) (x : Party) :
    ∃ origins, List.Forall₂ (fun o s => Sealing.Answers s o) (w.openedBy x) origins ∧
      List.Subperm origins w.sealings := by
  have hmatch : ∀ l : List (Opening α), (∀ o ∈ l, o ∈ w.openedBy x) →
      ∃ origins, List.Forall₂ (fun o s => Sealing.Answers s o) l origins ∧
        origins ⊆ w.sealings ∧ origins.map naming.ofSealing = l.map naming.ofOpening := by
    intro l hl
    induction l with
    | nil => exact ⟨[], .nil, List.nil_subset _, rfl⟩
    | cons o l ih =>
      obtain ⟨origins, hforall, hsubset, hnames⟩ :=
        ih fun o' ho' => hl o' (List.mem_cons_of_mem _ ho')
      have ho := hl o List.mem_cons_self
      obtain ⟨s, hs, hsender, hkey, hsealed, hplaintext, -⟩ := h.opened x o ho
      rw [← (mem_openedBy.mp ho).2] at hsender
      refine ⟨s :: origins, .cons ⟨hsender, hsealed, hplaintext⟩ hforall,
        List.cons_subset.mpr ⟨hs, hsubset⟩, ?_⟩
      rw [List.map_cons, List.map_cons, hnames, naming.ofSealing_eq_ofOpening hkey hsealed]
  obtain ⟨origins, hforall, hsubset, hnames⟩ := hmatch (w.openedBy x) fun _ ho => ho
  have hnodup : origins.Nodup := by
    apply List.Nodup.of_map naming.ofSealing
    rw [hnames]
    exact h.openedOnce x
  exact ⟨origins, hforall, List.subperm_of_subset hnodup hsubset⟩

omit [DecidableEq α] in
/-- With distinct ratchet keys, frames opened under different keys differ. -/
theorem Lockstep.nodup_opened (h : Lockstep P sharedKey naming w)
    (hdistinct : (w.ratchets.map (publicKey P)).Nodup) (x : Party) :
    ((w.openedBy x).map Opening.sealed).Nodup := by
  have hnames : ((w.openedBy x).map naming.ofOpening).Nodup := h.openedOnce x
  refine List.Nodup.map_on (fun o ho o' ho' heq => ?_) (List.Nodup.of_map _ hnames)
  obtain ⟨s, hs, hsender, hkey, hsealed, -⟩ := h.opened x o ho
  obtain ⟨s', hs', hsender', hkey', hsealed', -⟩ := h.opened x o' ho'
  have hst : s = s' := (h.distinct_byLabel hdistinct).eq_of_sealed hs hs'
    (hsender.trans hsender'.symm) (hsealed.trans (heq.trans hsealed'.symm))
  have hname : naming.ofOpening o = naming.ofOpening o' := by
    rw [← naming.ofSealing_eq_ofOpening hkey hsealed, hst,
      naming.ofSealing_eq_ofOpening hkey' hsealed']
  exact List.inj_on_of_nodup_map hnames ho ho' hname

end World

/-- Injective agreement: every `decrypt` call that succeeded was given the nonce and the
    frame that an earlier `encrypt` call of the peer returned, and returned its plaintext;
    different calls are answered by different `encrypt` calls; and when the ratchet keys
    drawn are distinct, no frame is opened twice by one session. -/
theorem injective_agreement (free : FreeKdf P) (fresh : FreshSharedKey P sharedKey)
    {signedPrekey ownRatchet : σ} {w₀ w : World α σ}
    (hstart : World.start P sharedKey signedPrekey ownRatchet = .ok w₀)
    (hreaches : World.Reaches P w₀ w) :
    (∀ o before, (.opened o :: before) <:+ w.log →
      ∃ s, .sealed s ∈ before ∧ s.sender = o.receiver.peer ∧ s.sealed = o.sealed ∧
        s.plaintext = o.plaintext) ∧
    (∀ x, ∃ origins, List.Forall₂ (fun o s => Sealing.Answers s o) (w.openedBy x) origins ∧
      List.Subperm origins w.sealings) ∧
    ((w.ratchets.map (publicKey P)).Nodup →
      ∀ x, ((w.openedBy x).map Opening.sealed).Nodup) := by
  have h₀ : World.Lockstep P sharedKey .byKey w₀ := World.Lockstep.start hstart
  have h := h₀.reaches free fresh hreaches
  have hlog : Agreed w₀.log := by
    obtain ⟨-, rfl⟩ := World.start_eq_ok_iff.mp hstart
    intro o before hsuffix
    simp at hsuffix
  exact ⟨World.agreed_reaches free fresh hreaches h₀ hlog, h.exists_origins, h.nodup_opened⟩

/-- The frame that the responder has opened first is one of the initiator. -/
theorem injective_agreement_symbolic : ∃ w : World Symbolic.Letter Nat,
    w.openedBy .responder ≠ [] ∧ (∀ x, ((w.openedBy x).map Opening.sealed).Nodup) ∧
    ∃ origins, List.Forall₂ (fun o s => Sealing.Answers s o) (w.openedBy .responder) origins ∧
      List.Subperm origins w.sealings := by
  obtain ⟨w₀, w, hstart, hreaches, hdistinct, hopened⟩ :=
    Symbolic.exists_exchange Symbolic.sharedKey
  have hagreement := injective_agreement Symbolic.free Symbolic.fresh hstart hreaches
  exact ⟨w, hopened, hagreement.2.2 hdistinct, hagreement.2.1 .responder⟩

end Quietwire
