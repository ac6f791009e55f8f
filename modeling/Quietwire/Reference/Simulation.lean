/-
  Quietwire.Reference.Simulation

  The pair of sessions and the pair of reference parties do the same on every
  schedule within the limits.

  `PartyMatches` ties a reference party to a session: keys and counters are the
  same, and the party keeps every chain of the peer that the session has seen, in
  full, under its ratchet key, whatever the session has kept of it.
-/
import Quietwire.Reference.PartySpec
import Quietwire.Reference.Pair
import Quietwire.Ratchet.Budget

namespace Quietwire

variable {α σ label : Type} [DecidableEq α] [Octet α] {P : Primitives α σ}
  {sharedKey : SecretKey α} {secret : label → σ}

/-- Without a ratchet step, keys and counters of the sending side stay. -/
theorem Session.Decrypted.kept {s s' : Session α σ} {sealed : SealedFrame α}
    {generated : Except CryptoError σ} {plaintext : Plaintext α} {key : Key α}
    (run : Decrypted P s sealed generated plaintext key s')
    (hstays : s.takesStep (Header.parse sealed.frame) = false) :
    s'.rootKey = s.rootKey ∧ s'.ownRatchet = s.ownRatchet ∧ s'.sending = s.sending ∧
      s'.previousSendingLen = s.previousSendingLen := by
  rw [run.eq_of_stays P hstays]
  exact ⟨rfl, rfl, rfl, rfl⟩

/-- What a ratchet step derives, and what it leaves on the sending side. -/
theorem Session.Decrypted.stepped {s s' : Session α σ} {sealed : SealedFrame α} {own : σ}
    {plaintext : Plaintext α} {key : Key α}
    (run : Decrypted P s sealed (.ok own) plaintext key s')
    (hsteps : s.takesStep (Header.parse sealed.frame) = true) :
    ∃ middle receiving root sending,
      kdfRoot P s.rootKey s.ownRatchet (Header.parse sealed.frame).ratchet
        = .ok (middle, receiving) ∧
      kdfRoot P middle own (Header.parse sealed.frame).ratchet = .ok (root, sending) ∧
      s'.rootKey = root ∧ s'.ownRatchet = own ∧ s'.sending = some { key := sending, next := 0 } ∧
      s'.previousSendingLen = (s.sending.map Chain.next).getD 0 := by
  cases run with
  | skipped store found first opens =>
    rw [takesStep_of_stored store found first] at hsteps
    cases hsteps
  | current missing remote receiving belowLimit notPassed near opens =>
    rw [takesStep_of_remote remote] at hsteps
    cases hsteps
  | step missing remote closes receivingKeys generated sendingKeys near opens =>
    obtain rfl := Except.ok.inj generated
    exact ⟨_, _, _, _, receivingKeys, sendingKeys, rfl, rfl, rfl, rfl⟩

namespace Reference

variable {w w' : World α σ} {x : Party} {labels : List label} {r : RatchetParty α σ label}

/-- The label of a frame, as the reference writes it. -/
def labelOf (header : Header α) : Bytes α × Nat :=
  (header.ratchet.toList, header.messageNumber.toNat)

/-- The reference party `r` is where the session of `x` is. -/
structure PartyMatches (P : Primitives α σ) (sharedKey : SecretKey α) (labels : List label)
    (w : World α σ) (x : Party) (r : RatchetParty α σ label) : Prop where
  rootKey : r.rootKey = (w.session x).rootKey.toList
  ownRatchet : r.ownRatchet = (w.session x).ownRatchet
  labels : r.ratchetLabels = labels.drop (w.steps x)
  sending : r.sending = (w.session x).sending.map fun chain =>
    (chain.key.toList, chain.next.toNat)
  previous : r.previousSendingLen = (w.session x).previousSendingLen.toNat
  seen : ∀ chain ratchet start, 1 ≤ chain → chain ≤ w.steps x →
    (w.eraOf x.peer chain).head?.map (publicKey P) = some ratchet →
    startKeyOf P sharedKey (w.eraOf x.peer chain) = some start →
    ∃ n, r.receiving ratchet.toList = some (keyList P start n)
  unseen : ∀ ratchet : PublicKey α, (∀ chain, 1 ≤ chain → chain ≤ w.steps x →
    (w.eraOf x.peer chain).head?.map (publicKey P) ≠ some ratchet) →
    r.receiving ratchet.toList = none
  used : ∀ p ∈ r.used, ∃ o ∈ w.openedBy x, p = labelOf (Header.parse o.sealed.frame)

namespace PartyMatches

omit [DecidableEq α] in
/-- What a party keeps depends only on the session's keys, what it has opened and the chains
    of the peer that it has seen. -/
theorem of_eq (m : PartyMatches P sharedKey labels w x r)
    (hroot : (w'.session x).rootKey = (w.session x).rootKey)
    (hown : (w'.session x).ownRatchet = (w.session x).ownRatchet)
    (hsending : (w'.session x).sending = (w.session x).sending)
    (hprevious : (w'.session x).previousSendingLen = (w.session x).previousSendingLen)
    (hsteps : w'.steps x = w.steps x)
    (hera : ∀ chain ≤ w.steps x, w'.eraOf x.peer chain = w.eraOf x.peer chain)
    (hopened : w.openedBy x ⊆ w'.openedBy x) : PartyMatches P sharedKey labels w' x r where
  rootKey := by rw [m.rootKey, hroot]
  ownRatchet := by rw [m.ownRatchet, hown]
  labels := by rw [m.labels, hsteps]
  sending := by rw [m.sending, hsending]
  previous := by rw [m.previous, hprevious]
  seen chain ratchet start hpos hle := by
    rw [hsteps] at hle
    rw [hera chain hle]
    exact m.seen chain ratchet start hpos hle
  unseen ratchet h := by
    refine m.unseen ratchet fun chain hpos hle => ?_
    rw [← hera chain hle]
    exact h chain hpos (by rw [hsteps]; exact hle)
  used p hp := by
    obtain ⟨o, ho, heq⟩ := m.used p hp
    exact ⟨o, hopened ho, heq⟩

/-- A party still matches after it has extended the chain of a frame that was opened. -/
theorem afterOpening (h : World.Lockstep P sharedKey .byLabel w)
    (hdistinct : (w.ratchets.map (publicKey P)).Nodup)
    (m : PartyMatches P sharedKey labels w x r) {o : Opening α} (ho : o ∈ w.openedBy x)
    {chain n : Nat} {start : Key α} (hpos : 1 ≤ chain) (hle : chain ≤ w.steps x)
    (hratchet : (w.eraOf x.peer chain).head?.map (publicKey P)
      = some (Header.parse o.sealed.frame).ratchet)
    (hstart : startKeyOf P sharedKey (w.eraOf x.peer chain) = some start) :
    PartyMatches P sharedKey labels w x (r.afterOpening (Header.parse o.sealed.frame).ratchet.toList
      (Header.parse o.sealed.frame).messageNumber.toNat (keyList P start n)) where
  rootKey := m.rootKey
  ownRatchet := m.ownRatchet
  labels := m.labels
  sending := m.sending
  previous := m.previous
  seen chain' ratchet start' hpos' hle' hratchet' hstart' := by
    have hseen := (h.steps_le x).1
    by_cases hsame : ratchet = (Header.parse o.sealed.frame).ratchet
    · -- the ratchet key tells the chain
      subst hsame
      obtain rfl := h.chain_of_ratchet hdistinct (hle'.trans hseen) (hle.trans hseen) hpos'
        (hratchet'.trans hratchet.symm)
      obtain rfl := Option.some.inj (hstart'.symm.trans hstart)
      exact ⟨n, Function.update_self _ _ _⟩
    · obtain ⟨n', hn'⟩ := m.seen chain' ratchet start' hpos' hle' hratchet' hstart'
      refine ⟨n', ?_⟩
      show Function.update r.receiving _ _ ratchet.toList = _
      rw [Function.update_of_ne (fun heq => hsame (Vector.toList_inj.mp heq)), hn']
  unseen ratchet hne := by
    have hother : ratchet ≠ (Header.parse o.sealed.frame).ratchet := by
      rintro rfl
      exact hne chain hpos hle hratchet
    show Function.update r.receiving _ _ ratchet.toList = _
    rw [Function.update_of_ne (fun heq => hother (Vector.toList_inj.mp heq))]
    exact m.unseen ratchet hne
  used p hp := by
    rcases List.mem_cons.mp hp with rfl | hold
    · exact ⟨o, ho, rfl⟩
    · exact m.used p hold

end PartyMatches

/-! ## Pairs -/

def Message.ofSealing (s : Sealing α) : Message α where
  sender := s.sender
  nonce := s.sealed.nonce
  frame := s.sealed.frame.toList

/-- The pair of parties `p` is where the sessions of `w` are. -/
structure Matches (P : Primitives α σ) (sharedKey : SecretKey α) (labels : Party → List label)
    (w : World α σ) (p : Pair α σ label) : Prop where
  party : ∀ x, PartyMatches P sharedKey (labels x) w x (p.party x)
  messages : p.messages = w.sealings.reverse.map Message.ofSealing

variable {labels : Party → List label} {p : Pair α σ label}

section Sending

variable {nonce : Nonce α} {plaintext : Plaintext α} {sealed : SealedFrame α} {s : Session α σ}
  {chain : Chain α}

omit [DecidableEq α] in
/-- Where a session seals a frame, the reference seals the same bytes, and matches it again. -/
theorem PartyMatches.afterSealing {labels : List label} (m : PartyMatches P sharedKey labels w x r)
    (run : Session.Sealed P nonce plaintext (w.session x) sealed s chain) :
    ∃ r', r.encrypt P nonce.toList plaintext.toList = .ok sealed.frame.toList r' ∧
      PartyMatches P sharedKey labels (w.recordSealing s
        ⟨x, w.sendingChain x, some (Quietwire.kdfChain P chain.key).1, plaintext, sealed⟩) x
        r' := by
  -- the reference seals under the same key and header
  have hsending := m.sending
  rw [run.sending, Option.map_some] at hsending
  have hratchet : ((w.session x).nextHeader P chain).ratchet = publicKey P r.ownRatchet := by
    rw [m.ownRatchet]
    rfl
  have hseal := run.sealing
  rw [run.aad] at hseal
  have hrun := RatchetParty.encrypt_of_seal hratchet m.previous hsending hseal
  rw [← run.aad, ← frame_eq] at hrun
  have hnext : (chain.next + 1).toNat = chain.next.toNat + 1 := by
    apply toNat_succ_of_lt (m := chainLimit)
    rw [chainLimit_toNat]
    exact run.belowLimit
  have hself := World.session_recordSealing_self w s
    ⟨x, w.sendingChain x, some (Quietwire.kdfChain P chain.key).1, plaintext, sealed⟩
  refine ⟨_, hrun, ?_⟩
  constructor
  case rootKey =>
    rw [hself, run.after]
    exact m.rootKey
  case ownRatchet =>
    rw [hself, run.after]
    exact m.ownRatchet
  case labels => exact m.labels
  case sending =>
    rw [hself, run.after]
    show some ((Quietwire.kdfChain P chain.key).2.toList, chain.next.toNat + 1)
      = some ((Quietwire.kdfChain P chain.key).2.toList, (chain.next + 1).toNat)
    rw [hnext]
  case previous =>
    rw [hself, run.after]
    exact m.previous
  case seen => exact m.seen
  case unseen => exact m.unseen
  case used => exact m.used

/-- Both pairs seal the same frame. -/
theorem Matches.send (m : Matches P sharedKey labels w p)
    (run : Session.Sealed P nonce plaintext (w.session x) sealed s chain) : ∃ p',
      p.act P secret (.send x nonce plaintext) = (p', .sent sealed.frame.toList) ∧
      Matches P sharedKey labels (w.recordSealing s
        ⟨x, w.sendingChain x, some (Quietwire.kdfChain P chain.key).1, plaintext, sealed⟩) p' := by
  -- the sender's half
  obtain ⟨r', hrun, hmatches⟩ := (m.party x).afterSealing run
  have hact : p.act P secret (.send x nonce plaintext) =
      ({ party := Function.update p.party x r'
         messages := p.messages ++ [⟨x, nonce, sealed.frame.toList⟩] },
        .sent sealed.frame.toList) := by
    rw [Pair.act, hrun]
  refine ⟨_, hact, ?_, ?_⟩
  · intro y
    by_cases hy : y = x
    · subst hy
      simp only [Function.update_self]
      exact hmatches
    -- the other party is as before
    · simp only [Function.update_of_ne hy]
      have hother := World.session_recordSealing_of_ne w s
        ⟨x, w.sendingChain x, some (Quietwire.kdfChain P chain.key).1, plaintext, sealed⟩ hy
      exact (m.party y).of_eq (by rw [hother]) (by rw [hother]) (by rw [hother]) (by rw [hother])
        rfl (fun _ _ => rfl) (List.Subset.refl _)
  · show p.messages ++ [_] = (_ :: w.sealings).reverse.map Message.ofSealing
    rw [m.messages, List.reverse_cons, List.map_append, List.map_singleton, Message.ofSealing,
      run.nonce_eq]

end Sending

/-! ## Receiving -/

section Receiving

variable {t : Sealing α} {key : Key α} {s' : Session α σ} {own : σ}

/-- A frame that was not opened is not in use. -/
theorem PartyMatches.unused {labels : List label} (h : World.Lockstep P sharedKey .byLabel w)
    (hdistinct : (w.ratchets.map (publicKey P)).Nodup)
    (m : PartyMatches P sharedKey labels w x r) (ht : t ∈ w.unopened x) :
    labelOf t.header ∉ r.used := by
  intro hmem
  obtain ⟨o, ho, heq⟩ := m.used _ hmem
  obtain ⟨hratchet, hnumber⟩ := Prod.ext_iff.mp heq
  refine h.label_unopened (h.distinct_byLabel hdistinct) ht (List.mem_map.mpr ⟨o, ho, ?_⟩)
  rw [Naming.ofOpening, Naming.ofSealing, Naming.ofHeader, Naming.ofHeader,
    Vector.toList_inj.mp hratchet, UInt32.toNat_inj.mp hnumber]

omit [DecidableEq α] in
/-- The start key of the chain of a frame, and the frame's key as the reference finds it. -/
theorem exists_start (h : World.Lockstep P sharedKey .byLabel w) (correct : CorrectPrimitives P)
    (ht : t ∈ w.sealings) : ∃ start,
      startKeyOf P sharedKey (w.eraOf t.sender t.chain) = some start ∧
      Opens P (messageKeyAt P start t.number) t.sealed t.plaintext := by
  obtain ⟨key, hkey, hopens⟩ := (h.genuine t ht).opens correct
  have hkeyOf := (h.genuine t ht).key
  rw [hkey, messageKeyOf, eq_comm, Option.map_eq_some_iff] at hkeyOf
  obtain ⟨start, hstart, rfl⟩ := hkeyOf
  exact ⟨start, hstart, hopens⟩

section Opened

variable {labels : List label} (h : World.Lockstep P sharedKey .byLabel w)
  (correct : CorrectPrimitives P) (hdistinct : (w.ratchets.map (publicKey P)).Nodup)
  (m : PartyMatches P sharedKey labels w x r) (ht : t ∈ w.unopened x)
  (run : Session.Decrypted P (w.session x) t.sealed (.ok own) t.plaintext key s')

include h correct hdistinct m ht run

/-- Where a session opens a frame of a chain that it has seen, the reference opens it to the
    same bytes, and matches it again. -/
theorem PartyMatches.opened (hstays : (w.session x).takesStep t.header = false)
    (hseen : t.chain ≤ w.steps x)
    (h' : World.Lockstep P sharedKey .byLabel
      (w.recordOpening s' ⟨x, some key, t.plaintext, t.sealed⟩)) :
    ∃ r', r.decrypt P secret t.sealed.nonce.toList t.sealed.frame.toList
        = .ok t.plaintext.toList r' ∧
      PartyMatches P sharedKey labels
        (w.recordOpening s' ⟨x, some key, t.plaintext, t.sealed⟩) x r' := by
  obtain ⟨hmem, hsender, -⟩ := World.mem_unopened.mp ht
  obtain ⟨start, hstart, hopens⟩ := exists_start h correct hmem
  have hpos := (h.genuine t hmem).chain_pos
  have hratchet := (h.genuine t hmem).ratchet
  rw [hsender] at hstart hratchet
  -- the reference has the keys of every chain that was seen
  obtain ⟨n, hchain⟩ := m.seen _ _ _ hpos hseen hratchet hstart
  have hrun := RatchetParty.decrypt_of_seen secret hopens (m.unused h hdistinct ht) hchain
  -- a frame opened without a step leaves all but the store and the receiving chain alone
  obtain ⟨hroot, hown, hsending, hprevious⟩ := run.kept hstays
  have hself := World.session_recordOpening_self w s' ⟨x, some key, t.plaintext, t.sealed⟩
  have hopened := World.openedBy_recordOpening_self w s' ⟨x, some key, t.plaintext, t.sealed⟩
  have m' : PartyMatches P sharedKey labels
      (w.recordOpening s' ⟨x, some key, t.plaintext, t.sealed⟩) x r :=
    m.of_eq (by rw [hself, hroot]) (by rw [hself, hown]) (by rw [hself, hsending])
      (by rw [hself, hprevious]) rfl (fun _ _ => rfl)
      (by rw [hopened]; exact List.subset_cons_self _ _)
  have ho : (⟨x, some key, t.plaintext, t.sealed⟩ : Opening α)
      ∈ (w.recordOpening s' ⟨x, some key, t.plaintext, t.sealed⟩).openedBy x := by
    rw [hopened]
    exact List.mem_cons_self
  exact ⟨_, hrun, m'.afterOpening h' hdistinct ho hpos hseen hratchet hstart⟩

/-- Where a session takes a ratchet step, the reference takes it with the same key, opens the
    frame to the same bytes, and matches the session again. -/
theorem PartyMatches.stepped (standard : StandardHkdf P)
    (hsteps : (w.session x).takesStep t.header = true) (hchain : t.chain = w.steps x + 1)
    {next : label} (hlabel : labels[w.steps x]? = some next) (hown : own = secret next)
    (h' : World.Lockstep P sharedKey .byLabel
      (w.recordStep s' ⟨x, some key, t.plaintext, t.sealed⟩))
    (hdistinct' : ((w.recordStep s' ⟨x, some key, t.plaintext, t.sealed⟩).ratchets.map
      (publicKey P)).Nodup) :
    ∃ r', r.decrypt P secret t.sealed.nonce.toList t.sealed.frame.toList
        = .ok t.plaintext.toList r' ∧
      PartyMatches P sharedKey labels
        (w.recordStep s' ⟨x, some key, t.plaintext, t.sealed⟩) x r' := by
  obtain ⟨hmem, hsender, -⟩ := World.mem_unopened.mp ht
  obtain ⟨start, hstart, hopens⟩ := exists_start h correct hmem
  obtain ⟨middle, receiving, root, sending, hreceiving, hsending, hrootEq, hownEq, hsendingEq,
    hpreviousEq⟩ := run.stepped hsteps
  have hratchet := (h.genuine t hmem).ratchet
  have hchainLe := (h.genuine t hmem).chain_le
  rw [hsender] at hratchet hstart hchainLe
  -- both derive the start key of the peer's newest chain
  obtain ⟨hnext, start', hstart', hkeys⟩ := h.kdfRoot_next correct.commutes hmem hsender hchain
  have hsame : receiving = start := by
    rw [hchain, h.eraOf_next hnext, hstart'] at hstart
    have hpair := Except.ok.inj (hreceiving.symm.trans hkeys)
    exact (Prod.ext_iff.mp hpair).2.trans (Option.some.inj hstart)
  subst hsame hown
  have hunseen : r.receiving t.header.ratchet.toList = none := by
    refine m.unseen _ fun chain hpos hle heq => ?_
    have hsame := h.chain_of_ratchet hdistinct (hle.trans (h.steps_le x).1) hchainLe hpos
      (heq.trans hratchet.symm)
    omega
  have hhead : r.ratchetLabels.head? = some next := by
    rw [m.labels, List.head?_drop, hlabel]
  have hownRatchet := m.ownRatchet
  rw [← hownRatchet] at hreceiving
  have hstep := RatchetParty.ratchetStep_of_keys standard secret m.rootKey hhead hreceiving hsending
  have hfirst : (r.afterStep (secret next) root sending receiving t.header.ratchet).receiving
      t.header.ratchet.toList = some (keyList P receiving 0) := Function.update_self _ _ _
  have hunused := m.unused h hdistinct ht
  have hrun := RatchetParty.decrypt_of_unseen secret hopens hstep hunused hunseen hfirst
  have hself := World.session_recordStep_self w s' ⟨x, some key, t.plaintext, t.sealed⟩
  have hcount : (w.recordStep s' ⟨x, some key, t.plaintext, t.sealed⟩).steps x = w.steps x + 1 :=
    World.steps_recordStep_self w s' ⟨x, some key, t.plaintext, t.sealed⟩
  have hopened := World.openedBy_recordOpening_self w s' ⟨x, some key, t.plaintext, t.sealed⟩
  have hera : ∀ chain ≤ w.steps x + 1,
      (w.recordStep s' ⟨x, some key, t.plaintext, t.sealed⟩).eraOf x.peer chain
        = w.eraOf x.peer chain := fun chain hle =>
    h.eraOf_recordStep s' (hle.trans (Nat.le_of_eq hnext.symm))
  have m' : PartyMatches P sharedKey labels
      (w.recordStep s' ⟨x, some key, t.plaintext, t.sealed⟩) x
      (r.afterStep (secret next) root sending receiving t.header.ratchet) := by
    constructor
    case rootKey => rw [hself, hrootEq]; rfl
    case ownRatchet => rw [hself, hownEq]; rfl
    case labels =>
      rw [hcount]
      show r.ratchetLabels.tail = _
      rw [m.labels, List.tail_drop]
    case sending => rw [hself, hsendingEq]; rfl
    case previous =>
      rw [hself, hpreviousEq]
      show (r.sending.map Prod.snd).getD 0 = _
      rw [m.sending]
      cases (w.session x).sending with
      | none => rfl
      | some chain => rfl
    case seen =>
      intro chain ratchet start' hpos hle hratchet' hstart'
      rw [hcount] at hle
      rw [hera chain hle] at hratchet' hstart'
      show ∃ n, Function.update r.receiving _ _ ratchet.toList = _
      rcases Nat.lt_or_eq_of_le hle with hlt | rfl
      · have hne : ratchet ≠ t.header.ratchet := by
          rintro rfl
          have hsame := h.chain_of_ratchet hdistinct
            ((Nat.le_of_lt_succ hlt).trans (h.steps_le x).1) hchainLe hpos
            (hratchet'.trans hratchet.symm)
          omega
        obtain ⟨n, hn⟩ := m.seen chain ratchet start' hpos (Nat.le_of_lt_succ hlt) hratchet' hstart'
        exact ⟨n, by rw [Function.update_of_ne (fun heq => hne (Vector.toList_inj.mp heq)), hn]⟩
      · rw [← hchain] at hratchet' hstart'
        obtain rfl := Option.some.inj (hratchet'.symm.trans hratchet)
        obtain rfl := Option.some.inj (hstart'.symm.trans hstart)
        exact ⟨0, Function.update_self _ _ _⟩
    case unseen =>
      intro ratchet hne
      have hother : ratchet ≠ t.header.ratchet := by
        rintro rfl
        refine hne t.chain (h.genuine t hmem).chain_pos (by rw [hcount]; omega) ?_
        rw [hera t.chain (by omega)]
        exact hratchet
      show Function.update r.receiving _ _ ratchet.toList = _
      rw [Function.update_of_ne (fun heq => hother (Vector.toList_inj.mp heq))]
      refine m.unseen ratchet fun chain hpos hle => ?_
      rw [← hera chain (by omega)]
      exact hne chain hpos (by rw [hcount]; omega)
    case used =>
      intro p hp
      obtain ⟨o, ho, heq⟩ := m.used p hp
      refine ⟨o, ?_, heq⟩
      rw [World.openedBy_recordStep, hopened]
      exact List.mem_cons_of_mem _ ho
  have ho : (⟨x, some key, t.plaintext, t.sealed⟩ : Opening α)
      ∈ (w.recordStep s' ⟨x, some key, t.plaintext, t.sealed⟩).openedBy x := by
    rw [World.openedBy_recordStep, hopened]
    exact List.mem_cons_self
  refine ⟨_, hrun, m'.afterOpening h' hdistinct' ho (h.genuine t hmem).chain_pos
    (by rw [hcount]; omega) ?_ ?_⟩
  · rw [hera t.chain (by omega)]
    exact hratchet
  · rw [hera t.chain (by omega)]
    exact hstart

end Opened

end Receiving

end Reference
end Quietwire
