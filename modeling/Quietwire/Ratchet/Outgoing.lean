/-
  Quietwire.Ratchet.Outgoing

  The frames that one session emits, whatever it is given: cut at the ratchet
  steps they form chains, each under a ratchet key of its own, numbered from 0
  without gap, and each naming the length of the chain before.
-/
import Quietwire.Ratchet.Refusal
import Quietwire.Symbolic.Dialogue

namespace Quietwire

/-- The frames emitted between two ratchet steps, oldest first, and the private ratchet key
    that the session had then. -/
structure SendingChain (α σ : Type) where
  own : σ
  frames : List (SealedFrame α)

/-- A session, and the frames it has emitted so far, the newest chain first. -/
structure Sender (α σ : Type) where
  session : Session α σ
  chains : List (SendingChain α σ)

def Output.frame? {α : Type} : Output α → Option (SealedFrame α)
  | .sealed (.ok frame) => some frame
  | _ => none

namespace SendingChain

variable {α σ : Type}

/-- One more frame in the newest chain. -/
def emit (sealed : SealedFrame α) : List (SendingChain α σ) → List (SendingChain α σ)
  | [] => []
  | chain :: older => { chain with frames := chain.frames ++ [sealed] } :: older

/-- The length of the newest chain; 0 when there is none. -/
def lastLen (chains : List (SendingChain α σ)) : Nat :=
  (chains.head?.map fun chain => chain.frames.length).getD 0

/-- All frames, in the order they were emitted. -/
def emitted (chains : List (SendingChain α σ)) : List (SealedFrame α) :=
  chains.reverse.flatMap frames

theorem emitted_cons (chain : SendingChain α σ) (older : List (SendingChain α σ)) :
    emitted (chain :: older) = emitted older ++ chain.frames := by
  simp [emitted]

theorem emitted_emit (sealed : SealedFrame α) {chains : List (SendingChain α σ)}
    (hne : chains ≠ []) : emitted (emit sealed chains) = emitted chains ++ [sealed] := by
  cases chains with
  | nil => exact absurd rfl hne
  | cons chain older => rw [emit, emitted_cons, emitted_cons, List.append_assoc]

theorem emitted_start (own : σ) (chains : List (SendingChain α σ)) :
    emitted (⟨own, []⟩ :: chains) = emitted chains := by
  rw [emitted_cons, List.append_nil]

theorem emit_ne_nil (sealed : SealedFrame α) {chains : List (SendingChain α σ)}
    (hne : chains ≠ []) : emit sealed chains ≠ [] := by
  cases chains with
  | nil => exact absurd rfl hne
  | cons chain older => exact List.cons_ne_nil _ _

end SendingChain

variable {α σ : Type} [DecidableEq α] [Octet α] {P : Primitives α σ}

namespace Sender

omit [DecidableEq α] [Octet α] in
/-- A session that has emitted nothing so far. -/
def new (s : Session α σ) : Sender α σ := ⟨s, [⟨s.ownRatchet, []⟩]⟩

variable (P) in
/-- A call, with the frame it emits added to the newest chain, and a chain started when it
    takes a ratchet step. -/
def call (h : Sender α σ) : Call α σ → Sender α σ × Output α
  | .encrypt random plaintext =>
    match h.session.call P (.encrypt random plaintext) with
    | (s, .sealed (.ok sealed)) => (⟨s, SendingChain.emit sealed h.chains⟩, .sealed (.ok sealed))
    | (s, output) => (⟨s, h.chains⟩, output)
  | .decrypt sealed random =>
    match h.session.call P (.decrypt sealed random) with
    | (s, .opened (.ok plaintext)) =>
      (⟨s, if h.session.takesStep (Header.parse sealed.frame) then ⟨s.ownRatchet, []⟩ :: h.chains
        else h.chains⟩, .opened (.ok plaintext))
    | (s, output) => (⟨s, h.chains⟩, output)

/-! ## Single calls -/

section Single

variable {s s' : Session α σ} {chains : List (SendingChain α σ)} {sealed : SealedFrame α}
  {plaintext : Plaintext α}

theorem call_of_sealed {random : Option (Nonce α)}
    (h : s.call P (.encrypt random plaintext) = (s', .sealed (.ok sealed))) :
    call P ⟨s, chains⟩ (.encrypt random plaintext)
      = (⟨s', SendingChain.emit sealed chains⟩, .sealed (.ok sealed)) := by
  rw [call, h]

theorem call_of_step {random : Option σ}
    (h : s.call P (.decrypt sealed random) = (s', .opened (.ok plaintext)))
    (hsteps : s.takesStep (Header.parse sealed.frame) = true) :
    call P ⟨s, chains⟩ (.decrypt sealed random)
      = (⟨s', ⟨s'.ownRatchet, []⟩ :: chains⟩, .opened (.ok plaintext)) := by
  rw [call, h]
  simp only [hsteps, if_true]

end Single

/-! ## What a call does -/

/-- What a call does to the chains, and what it returns. -/
inductive Effect (P : Primitives α σ) (h : Sender α σ) :
    Call α σ → Sender α σ → Output α → Prop
  | refused {call : Call α σ} {output : Output α}
      (run : h.session.call P call = (h.session, output)) (silent : output.frame? = none) :
      Effect P h call h output
  | sealed {nonce : Nonce α} {plaintext : Plaintext α} {sealed : SealedFrame α}
      {s' : Session α σ} {chain : Chain α}
      (run : Session.Sealed P nonce plaintext h.session sealed s' chain) :
      Effect P h (.encrypt (some nonce) plaintext) ⟨s', SendingChain.emit sealed h.chains⟩
        (.sealed (.ok sealed))
  | opened {sealed : SealedFrame α} {random : Option σ} {plaintext : Plaintext α} {key : Key α}
      {s' : Session α σ}
      (run : Session.Decrypted P h.session sealed (rngFill random) plaintext key s')
      (stays : h.session.takesStep (Header.parse sealed.frame) = false) :
      Effect P h (.decrypt sealed random) ⟨s', h.chains⟩ (.opened (.ok plaintext))
  | stepped {sealed : SealedFrame α} {random : Option σ} {plaintext : Plaintext α} {key : Key α}
      {s' : Session α σ}
      (run : Session.Decrypted P h.session sealed (rngFill random) plaintext key s')
      (steps : h.session.takesStep (Header.parse sealed.frame) = true) :
      Effect P h (.decrypt sealed random) ⟨s', ⟨s'.ownRatchet, []⟩ :: h.chains⟩
        (.opened (.ok plaintext))

theorem call_effect (h : Sender α σ) (call : Call α σ) :
    Effect P h call (h.call P call).1 (h.call P call).2 := by
  cases hcall : h.session.call P call with
  | mk s' output =>
    have heffect := h.session.call_effect (P := P) call
    rw [hcall] at heffect
    cases heffect with
    | refusedSealing run =>
      rw [Sender.call, hcall]
      exact .refused hcall rfl
    | refusedOpening run =>
      rw [Sender.call, hcall]
      exact .refused hcall rfl
    | sealed run =>
      rw [Sender.call, hcall]
      exact .sealed run
    | @opened sealed random plaintext key s' run =>
      rw [Sender.call, hcall]
      cases hsteps : h.session.takesStep (Header.parse sealed.frame) with
      | false => exact .opened run hsteps
      | true => exact .stepped run hsteps

/-- The chains are read by nothing: the session does what it does on its own. -/
theorem call_session (h : Sender α σ) (call : Call α σ) :
    h.session.call P call = ((h.call P call).1.session, (h.call P call).2) := by
  cases call with
  | encrypt random plaintext =>
    rw [Sender.call]
    split
    · assumption
    · assumption
  | decrypt sealed random =>
    rw [Sender.call]
    split
    · assumption
    · assumption

/-! ## Runs -/

theorem run_session (h : Sender α σ) (calls : List (Call α σ)) :
    Machine.run (Session.call P) h.session calls
      = ((Machine.run (Sender.call P) h calls).1.session,
        (Machine.run (Sender.call P) h calls).2) := by
  induction calls generalizing h with
  | nil => rfl
  | cons call calls ih =>
    simp only [Machine.run, h.call_session call, ih]

theorem chains_ne_nil {h : Sender α σ} (hne : h.chains ≠ []) (call : Call α σ) :
    (h.call P call).1.chains ≠ [] := by
  cases hcall : h.call P call with
  | mk h' output =>
    have heffect := h.call_effect (P := P) call
    rw [hcall] at heffect
    cases heffect with
    | refused run silent => exact hne
    | sealed run => exact SendingChain.emit_ne_nil _ hne
    | opened run stays => exact hne
    | stepped run steps => exact List.cons_ne_nil _ _

theorem emitted_call {h : Sender α σ} (hne : h.chains ≠ []) (call : Call α σ) :
    SendingChain.emitted (h.call P call).1.chains
      = SendingChain.emitted h.chains ++ (h.call P call).2.frame?.toList := by
  cases hcall : h.call P call with
  | mk h' output =>
    have heffect := h.call_effect (P := P) call
    rw [hcall] at heffect
    cases heffect with
    | refused run silent =>
      rw [silent]
      exact (List.append_nil _).symm
    | sealed run => exact SendingChain.emitted_emit _ hne
    | opened run stays => exact (List.append_nil _).symm
    | stepped run steps =>
      rw [SendingChain.emitted_start]
      exact (List.append_nil _).symm

/-- The chains are the frames that the calls returned, in order. -/
theorem emitted_run {h : Sender α σ} (hne : h.chains ≠ []) (calls : List (Call α σ)) :
    SendingChain.emitted (Machine.run (Sender.call P) h calls).1.chains
      = SendingChain.emitted h.chains
        ++ (Machine.run (Sender.call P) h calls).2.filterMap Output.frame? := by
  induction calls generalizing h with
  | nil => exact (List.append_nil _).symm
  | cons call calls ih =>
    rw [Machine.run, ih (chains_ne_nil hne call), emitted_call hne, List.append_assoc]
    congr 1
    rw [List.filterMap_cons]
    cases (h.call P call).2.frame? with
    | none => rfl
    | some frame => rfl

end Sender

/-! ## Well-numbered chains -/

/-- The header of a frame under the ratchet key `own`, with number `n`, after a chain of
    `before` frames. -/
structure Header.Numbered (P : Primitives α σ) (header : Header α) (own : σ) (before n : Nat) :
    Prop where
  ratchet : header.ratchet = publicKey P own
  previous : header.previousChainLen.toNat = before
  number : header.messageNumber.toNat = n

namespace SendingChain

/-- Each chain is numbered from 0 and within the limit, and its frames name the length of the
    chain before. -/
def Numbered (P : Primitives α σ) : List (SendingChain α σ) → Prop
  | [] => True
  | chain :: older => chain.frames.length ≤ 2000 ∧
      (∀ n frame, chain.frames[n]? = some frame →
        (Header.parse frame.frame).Numbered P chain.own (lastLen older) n) ∧
      Numbered P older

omit [DecidableEq α] in
/-- What the numbering says about a chain anywhere among the chains. -/
theorem Numbered.split {newer older : List (SendingChain α σ)} {chain : SendingChain α σ}
    (h : Numbered P (newer ++ chain :: older)) : chain.frames.length ≤ 2000 ∧
      ∀ n frame, chain.frames[n]? = some frame →
        (Header.parse frame.frame).Numbered P chain.own (lastLen older) n := by
  induction newer with
  | nil => exact ⟨h.1, h.2.1⟩
  | cons newest newer ih => exact ih h.2.2

omit [DecidableEq α] in
/-- The next frame of the newest chain. -/
theorem Numbered.emit {chain : SendingChain α σ} {older : List (SendingChain α σ)}
    (h : Numbered P (chain :: older)) {sealed : SealedFrame α}
    (hlimit : chain.frames.length < 2000)
    (hheader : (Header.parse sealed.frame).Numbered P chain.own (lastLen older)
      chain.frames.length) : Numbered P (emit sealed (chain :: older)) := by
  obtain ⟨-, hframes, holder⟩ := h
  refine ⟨?_, fun n frame hn => ?_, holder⟩
  · rw [List.length_append, List.length_singleton]
    exact hlimit
  · rw [List.getElem?_append] at hn
    split at hn
    · exact hframes n frame hn
    · rename_i hge
      have hlast := List.getElem?_eq_some_iff.mp hn
      obtain ⟨hlt, hframe⟩ := hlast
      rw [List.length_singleton] at hlt
      have hn : n = chain.frames.length := by omega
      subst hn
      rw [List.getElem_singleton] at hframe
      rw [← hframe]
      exact hheader

omit [DecidableEq α] in
theorem Numbered.ratchet_of_mem {chain : SendingChain α σ} {older : List (SendingChain α σ)}
    (h : Numbered P (chain :: older)) {frame : SealedFrame α} (hmem : frame ∈ chain.frames) :
    (Header.parse frame.frame).ratchet = publicKey P chain.own := by
  obtain ⟨n, hn⟩ := List.mem_iff_getElem?.mp hmem
  exact (h.2.1 n frame hn).ratchet

omit [DecidableEq α] in
theorem Numbered.exists_own {chains : List (SendingChain α σ)} (h : Numbered P chains)
    {frame : SealedFrame α} (hmem : frame ∈ emitted chains) :
    ∃ chain ∈ chains, (Header.parse frame.frame).ratchet = publicKey P chain.own := by
  induction chains with
  | nil => simp [emitted] at hmem
  | cons chain older ih =>
    rw [emitted_cons, List.mem_append] at hmem
    rcases hmem with hold | hnew
    · obtain ⟨c, hc, hratchet⟩ := ih h.2.2 hold
      exact ⟨c, List.mem_cons_of_mem _ hc, hratchet⟩
    · exact ⟨chain, List.mem_cons_self, h.ratchet_of_mem hnew⟩

/-- With distinct ratchet keys, the frames under one of them are its chain. -/
theorem Numbered.filter_emitted {chains : List (SendingChain α σ)} (h : Numbered P chains)
    (hdistinct : (chains.map fun chain => publicKey P chain.own).Nodup)
    {chain : SendingChain α σ} (hmem : chain ∈ chains) :
    (emitted chains).filter (fun frame =>
      (Header.parse frame.frame).ratchet = publicKey P chain.own) = chain.frames := by
  induction chains with
  | nil => cases hmem
  | cons newest older ih =>
    obtain ⟨hnew, hold⟩ := List.nodup_cons.mp hdistinct
    rw [emitted_cons, List.filter_append]
    rcases List.mem_cons.mp hmem with rfl | hin
    · -- no older frame is under the newest key
      have hnone : (emitted older).filter (fun frame =>
          (Header.parse frame.frame).ratchet = publicKey P chain.own) = [] := by
        rw [List.filter_eq_nil_iff]
        intro frame hframe
        obtain ⟨c, hc, hratchet⟩ := h.2.2.exists_own hframe
        rw [hratchet, decide_eq_true_eq]
        intro heq
        have hkey : publicKey P c.own ∈ older.map fun chain => publicKey P chain.own :=
          List.mem_map_of_mem hc
        rw [heq] at hkey
        exact hnew hkey
      have hall : chain.frames.filter (fun frame =>
          (Header.parse frame.frame).ratchet = publicKey P chain.own) = chain.frames := by
        rw [List.filter_eq_self]
        intro frame hframe
        rw [h.ratchet_of_mem hframe, decide_eq_true_eq]
      rw [hnone, hall, List.nil_append]
    -- an older key: nothing of the newest chain is under it
    · have hnone : newest.frames.filter (fun frame =>
          (Header.parse frame.frame).ratchet = publicKey P chain.own) = [] := by
        rw [List.filter_eq_nil_iff]
        intro frame hframe
        rw [h.ratchet_of_mem hframe, decide_eq_true_eq]
        intro heq
        have hkey : publicKey P chain.own ∈ older.map fun chain => publicKey P chain.own :=
          List.mem_map_of_mem hin
        rw [← heq] at hkey
        exact hnew hkey
      rw [hnone, List.append_nil]
      exact ih h.2.2 hold hin

end SendingChain

namespace Sender

variable {s₀ : Session α σ}

/-- The chains of a session that started as `s₀`: the newest is `frames`, under the ratchet
    key the session has now, and its counters are those that the numbering needs. -/
structure Ordered (P : Primitives α σ) (s₀ : Session α σ) (h : Sender α σ)
    (frames : List (SealedFrame α)) (older : List (SendingChain α σ)) : Prop where
  chains : h.chains = ⟨h.session.ownRatchet, frames⟩ :: older
  previous : h.session.previousSendingLen.toNat = SendingChain.lastLen older
  next : ∀ chain, h.session.sending = some chain → chain.next.toNat = frames.length
  idle : h.session.sending = none → frames = []
  sending : h.session.sending = none ↔ s₀.sending = none ∧ older = []
  numbered : SendingChain.Numbered P h.chains

theorem Ordered.new (hstart : s₀.Started P) : Ordered P s₀ (.new s₀) [] [] where
  chains := rfl
  previous := by
    obtain ⟨-, hprevious, -⟩ := hstart.fresh
    show s₀.previousSendingLen.toNat = 0
    rw [hprevious]
    rfl
  next chain hchain := by
    rw [hstart.fresh.2.2.2 chain hchain]
    rfl
  idle _ := rfl
  sending := (and_iff_left rfl).symm
  numbered := ⟨Nat.zero_le _, by simp, trivial⟩

variable {h : Sender α σ} {frames : List (SealedFrame α)} {older : List (SendingChain α σ)}
  {s' : Session α σ}

omit [DecidableEq α] in
/-- Emitting a frame adds it to the newest chain. -/
theorem Ordered.sealed (ho : Ordered P s₀ h frames older) {nonce : Nonce α}
    {plaintext : Plaintext α} {sealed : SealedFrame α} {chain : Chain α}
    (run : Session.Sealed P nonce plaintext h.session sealed s' chain) :
    Ordered P s₀ ⟨s', SendingChain.emit sealed h.chains⟩ (frames ++ [sealed]) older := by
  have hnext := ho.next chain run.sending
  have hafter := run.after
  have hbelow := run.belowLimit
  have hsome : h.session.sending ≠ none := by
    rw [run.sending]
    exact Option.some_ne_none _
  constructor
  case chains =>
    rw [ho.chains, SendingChain.emit, hafter]
  case previous =>
    rw [hafter]
    exact ho.previous
  -- the next number is the number of frames in the chain
  case next =>
    rw [hafter]
    rintro after ⟨⟩
    show (chain.next + 1).toNat = _
    rw [toNat_succ_of_lt (m := chainLimit) hbelow, hnext, List.length_append,
      List.length_singleton]
  case idle =>
    rw [hafter]
    intro hnone
    cases hnone
  case sending =>
    rw [hafter]
    refine iff_of_false (Option.some_ne_none _) ?_
    rw [← ho.sending]
    exact hsome
  case numbered =>
    have hnumbered := ho.numbered
    rw [ho.chains] at hnumbered
    show SendingChain.Numbered P (SendingChain.emit sealed h.chains)
    rw [ho.chains]
    refine hnumbered.emit (by show frames.length < 2000; omega) ?_
    rw [run.header]
    exact ⟨rfl, ho.previous, hnext⟩

/-- Opening a frame without a ratchet step leaves the chains alone. -/
theorem Ordered.opened (ho : Ordered P s₀ h frames older) {sealed : SealedFrame α}
    {generated : Except CryptoError σ} {plaintext : Plaintext α} {key : Key α}
    (run : Session.Decrypted P h.session sealed generated plaintext key s')
    (stays : h.session.takesStep (Header.parse sealed.frame) = false) :
    Ordered P s₀ ⟨s', h.chains⟩ frames older := by
  have hafter := run.eq_of_stays P stays
  constructor
  case chains =>
    rw [hafter]
    exact ho.chains
  case previous =>
    rw [hafter]
    exact ho.previous
  case next =>
    rw [hafter]
    exact ho.next
  case idle =>
    rw [hafter]
    exact ho.idle
  case sending =>
    rw [hafter]
    exact ho.sending
  case numbered => exact ho.numbered

/-- A ratchet step starts an empty chain, whose frames will name the length of the one that
    ends. -/
theorem Ordered.stepped (ho : Ordered P s₀ h frames older) {sealed : SealedFrame α}
    {generated : Except CryptoError σ} {plaintext : Plaintext α} {key : Key α}
    (run : Session.Decrypted P h.session sealed generated plaintext key s')
    (steps : h.session.takesStep (Header.parse sealed.frame) = true) :
    Ordered P s₀ ⟨s', ⟨s'.ownRatchet, []⟩ :: h.chains⟩ [] h.chains := by
  obtain ⟨⟨start, hsending⟩, hprevious⟩ := run.sending_of_steps P steps
  constructor
  case chains => rfl
  -- the length that the headers give is that of the chain that ends
  case previous =>
    show s'.previousSendingLen.toNat = _
    rw [hprevious, ho.chains]
    show _ = frames.length
    cases hold : h.session.sending with
    | none =>
      rw [ho.idle hold]
      rfl
    | some chain => exact ho.next chain hold
  case next =>
    intro chain hchain
    rw [hsending] at hchain
    obtain rfl := Option.some.inj hchain
    rfl
  case idle => exact fun _ => rfl
  -- once a party has stepped, it always has a chain to send in
  case sending =>
    refine iff_of_false ?_ ?_
    · show s'.sending ≠ none
      rw [hsending]
      exact Option.some_ne_none _
    · rw [ho.chains]
      exact fun hnil => List.cons_ne_nil _ _ hnil.2
  case numbered => exact ⟨Nat.zero_le _, by simp, ho.numbered⟩

theorem Ordered.call (ho : Ordered P s₀ h frames older) (call : Call α σ) :
    ∃ frames older, Ordered P s₀ (h.call P call).1 frames older := by
  cases hcall : h.call P call with
  | mk h' output =>
    have heffect := h.call_effect (P := P) call
    rw [hcall] at heffect
    cases heffect with
    | refused run silent => exact ⟨_, _, ho⟩
    | sealed run => exact ⟨_, _, ho.sealed run⟩
    | opened run stays => exact ⟨_, _, ho.opened run stays⟩
    | stepped run steps => exact ⟨_, _, ho.stepped run steps⟩

theorem Ordered.run (ho : Ordered P s₀ h frames older) (calls : List (Call α σ)) :
    ∃ frames older, Ordered P s₀ (Machine.run (Sender.call P) h calls).1 frames older := by
  induction calls generalizing h frames older with
  | nil => exact ⟨frames, older, ho⟩
  | cons call calls ih =>
    obtain ⟨frames', older', ho'⟩ := ho.call call
    exact ih ho'

omit [DecidableEq α] in
/-- The session cannot seal exactly when it has no chain, or 2 000 frames are in it. -/
theorem Ordered.blocked_iff (ho : Ordered P s₀ h frames older) :
    h.session.Blocked ↔ h.session.sending = none ∨ frames.length = 2000 := by
  have hlimit : frames.length ≤ 2000 := by
    have hnumbered := ho.numbered
    rw [ho.chains] at hnumbered
    exact hnumbered.1
  unfold Session.Blocked
  cases hsending : h.session.sending with
  | none => exact iff_of_true (by simp) (.inl rfl)
  | some chain =>
    have hnext := ho.next chain hsending
    constructor
    · intro hblocked
      have hfull := hblocked chain rfl
      exact .inr (by omega)
    · rintro (hnone | hfull) chain' ⟨⟩
      · cases hnone
      · omega

end Sender

/-- Outgoing headers form well-numbered chains, whatever the session is given.  After any calls
    on a new session, the frames returned, in order, are its chains one after the other, a new
    one having been started at each ratchet step: with distinct ratchet keys, a chain is the
    frames under its key.  In each chain of at most 2 000 frames, the numbers are 0, 1, 2, …, and
    the previous chain length is the length of the chain before.  And `encrypt` reports a blocked
    session, the RNG working, exactly when there is no sending chain or 2 000 frames are in it;
    only a responder that has taken no ratchet step has none. -/
theorem outgoing_chains_numbered {s₀ : Session α σ} (hstart : s₀.Started P)
    (calls : List (Call α σ)) {h : Sender α σ} {outputs : List (Output α)}
    (hrun : Machine.run (Sender.call P) (.new s₀) calls = (h, outputs)) :
    Machine.run (Session.call P) s₀ calls = (h.session, outputs) ∧
    outputs.filterMap Output.frame? = SendingChain.emitted h.chains ∧
    ((h.chains.map fun chain => publicKey P chain.own).Nodup → ∀ chain ∈ h.chains,
      (SendingChain.emitted h.chains).filter (fun frame =>
        (Header.parse frame.frame).ratchet = publicKey P chain.own) = chain.frames) ∧
    (∀ newer chain older, h.chains = newer ++ chain :: older → chain.frames.length ≤ 2000 ∧
      ∀ n frame, chain.frames[n]? = some frame →
        (Header.parse frame.frame).ratchet = publicKey P chain.own ∧
        (Header.parse frame.frame).previousChainLen.toNat = SendingChain.lastLen older ∧
        (Header.parse frame.frame).messageNumber.toNat = n) ∧
    (∀ nonce plaintext, (h.session.call P (.encrypt (some nonce) plaintext)).2
        = .sealed (.error (.error .sendingBlocked)) ↔
      h.session.sending = none ∨ ∃ chain older, h.chains = chain :: older ∧
        chain.frames.length = 2000) ∧
    (h.session.sending = none ↔ s₀.sending = none ∧ h.chains.length = 1) ∧
    h.chains.head?.map SendingChain.own = some h.session.ownRatchet := by
  have hsession := Sender.run_session (P := P) (.new s₀) calls
  have hemitted := Sender.emitted_run (P := P) (h := .new s₀) (List.cons_ne_nil _ _) calls
  obtain ⟨frames, older, ho⟩ := (Sender.Ordered.new hstart).run calls
  rw [hrun] at hsession hemitted ho
  refine ⟨hsession, hemitted.symm, ?_, ?_, ?_, ?_, ?_⟩
  · intro hdistinct chain hmem
    exact ho.numbered.filter_emitted hdistinct hmem
  · intro newer chain older' hchains
    have hnumbered := ho.numbered
    rw [hchains] at hnumbered
    refine ⟨hnumbered.split.1, fun n frame hn => ?_⟩
    obtain ⟨hratchet, hprevious, hnumber⟩ := hnumbered.split.2 n frame hn
    exact ⟨hratchet, hprevious, hnumber⟩
  -- `encrypt` with a working nonce is `encryptWith`
  · intro nonce plaintext
    have hblocked : (h.session.call P (.encrypt (some nonce) plaintext)).2
        = .sealed (.error (.error .sendingBlocked)) ↔ h.session.Blocked := by
      rw [← Session.encrypt_eq_blocked_iff (P := P) nonce plaintext,
        Session.call]
      show _ ↔ ∃ s', Session.encrypt P (rngFill (some nonce)) plaintext h.session = _
      cases Session.encrypt P (rngFill (some nonce)) plaintext h.session with
      | ok sealed s' => simp
      | error failure s' => simp
    rw [hblocked, ho.blocked_iff, ho.chains]
    simp
  · rw [ho.sending, ho.chains]
    simp
  · rw [ho.chains]
    rfl

/-- The four frames of an initiator that takes a ratchet step after the second: those of its
    second chain name the two of the first. -/
theorem outgoing_chains_numbered_symbolic : ∃ d : Symbolic.Dialogue,
    (d.w₀.session .initiator).Started Symbolic.primitives ∧
    (Machine.run (Session.call Symbolic.primitives) (d.w₀.session .initiator)
      [.encrypt (some Symbolic.nonce) Symbolic.plaintext,
        .encrypt (some Symbolic.nonce) Symbolic.plaintext, .decrypt d.b₀.sealed (some 4),
        .encrypt (some Symbolic.nonce) Symbolic.plaintext,
        .encrypt (some Symbolic.nonce) Symbolic.plaintext]).2
      = [.sealed (.ok d.a₀.sealed), .sealed (.ok d.a₁.sealed), .opened (.ok d.b₀.plaintext),
        .sealed (.ok d.a₂.sealed), .sealed (.ok d.a₃.sealed)] ∧
    d.a₁.header.previousChainLen.toNat = 0 ∧ d.a₁.header.messageNumber.toNat = 1 ∧
    d.a₂.header.previousChainLen.toNat = 2 ∧ d.a₂.header.messageNumber.toNat = 0 ∧
    d.a₃.header.previousChainLen.toNat = 2 ∧ d.a₃.header.messageNumber.toNat = 1 := by
  obtain ⟨d⟩ := Symbolic.exists_dialogue
  have hstarted := World.started_of_start d.start .initiator
  have hcall₁ := World.call_of_sealed d.seals_a₀.call
  have hcall₂ := World.call_of_sealed d.seals_a₁.call
  have hcall₃ := World.call_of_opened d.receives_b₀.call
  have hcall₄ := World.call_of_sealed d.seals_a₂.call
  have hcall₅ := World.call_of_sealed d.seals_a₃.call
  rw [d.session₄] at hcall₃
  -- the chains: two frames before the ratchet step, and two after it
  have hrun : Machine.run (Sender.call Symbolic.primitives) (.new (d.w₀.session .initiator))
      [.encrypt (some Symbolic.nonce) Symbolic.plaintext,
        .encrypt (some Symbolic.nonce) Symbolic.plaintext, .decrypt d.b₀.sealed (some 4),
        .encrypt (some Symbolic.nonce) Symbolic.plaintext,
        .encrypt (some Symbolic.nonce) Symbolic.plaintext]
      = (⟨d.w₇.session .initiator,
          [⟨(d.w₅.session .initiator).ownRatchet, [d.a₂.sealed, d.a₃.sealed]⟩,
            ⟨(d.w₀.session .initiator).ownRatchet, [d.a₀.sealed, d.a₁.sealed]⟩]⟩,
        [.sealed (.ok d.a₀.sealed), .sealed (.ok d.a₁.sealed), .opened (.ok d.b₀.plaintext),
          .sealed (.ok d.a₂.sealed), .sealed (.ok d.a₃.sealed)]) := by
    simp only [Machine.run, Sender.new, Sender.call_of_sealed hcall₁, Sender.call_of_sealed hcall₂,
      Sender.call_of_step hcall₃ d.takesStep_b₀, Sender.call_of_sealed hcall₄,
      Sender.call_of_sealed hcall₅]
    rfl
  obtain ⟨hsame, -, -, hchains, -⟩ := outgoing_chains_numbered hstarted _ hrun
  obtain ⟨-, hnewer⟩ := hchains [] _ _ rfl
  obtain ⟨-, holder⟩ := hchains [_] _ [] rfl
  obtain ⟨-, hprevious₁, hnumber₁⟩ := holder 1 d.a₁.sealed rfl
  obtain ⟨-, hprevious₂, hnumber₂⟩ := hnewer 0 d.a₂.sealed rfl
  obtain ⟨-, hprevious₃, hnumber₃⟩ := hnewer 1 d.a₃.sealed rfl
  refine ⟨d, hstarted, ?_, hprevious₁, hnumber₁, hprevious₂, hnumber₂, hprevious₃, hnumber₃⟩
  rw [hsame]

end Quietwire
