/-
  Quietwire.Symbolic.Schedules

  Conversations over the symbolic primitives in which frames are sealed in a row,
  and arrive in any order.
-/
import Quietwire.Ratchet.Outstanding
import Quietwire.Ratchet.Schedule
import Quietwire.Symbolic.Conversation

namespace Quietwire
namespace Symbolic

/-- A state that a conversation reaches, with the private ratchet keys drawn on the way. -/
structure Run (w₀ w : World Letter Nat) (drawn : List Nat) : Prop where
  reaches : World.Reaches primitives w₀ w
  lockstep : World.Lockstep primitives sharedKey .byLabel w
  ratchets : w.ratchets = drawn
  nodup : drawn.Nodup

namespace Run

variable {w₀ w : World Letter Nat} {drawn : List Nat} {x : Party}

theorem distinct (r : Run w₀ w drawn) : (w.ratchets.map (publicKey primitives)).Nodup := by
  rw [r.ratchets]
  exact r.nodup.map fun _ _ heq => publicKey_inj.mp heq

/-- A party seals `n` frames in a chain in which it has sealed none. -/
theorem seals (r : Run w₀ w drawn) (x : Party) (chain n : Nat)
    (hchain : w.sendingChain x = chain) (hstarted : 1 ≤ chain) (hempty : w.sentIn x chain = [])
    (hn : n ≤ 2000) :
    ∃ v, Run w₀ v drawn ∧ w.SealedMore x n v ∧ (v.sentIn x chain).length = n ∧
      ∀ i < n, ∃ s ∈ v.sentIn x chain, s.number = i := by
  subst hchain
  obtain ⟨h, more⟩ := r.lockstep.sealMany (x := x) total hstarted nonce plaintext (n := n)
    (by rw [hempty, List.length_nil, Nat.zero_add]; exact hn)
  have hlen := more.sent
  rw [hempty, List.length_nil, Nat.zero_add] at hlen
  refine ⟨_, ⟨r.reaches.trans (World.sealMany_reaches w nonce plaintext (fun _ => trivial) n), h,
    more.ratchets.trans r.ratchets, r.nodup⟩, more, hlen, fun i hi => ?_⟩
  exact h.exists_number (by rw [hlen]; exact hi)

/-- A frame in reach arrives. -/
theorem opens (r : Run w₀ w drawn) {s : Sealing Letter} (hs : s ∈ w.sealings)
    (hsender : s.sender = x.peer) (hnot : ¬ w.Passed x s) (hreach : w.InReach x s) (own : Nat)
    (hfresh : own ∉ drawn) :
    Run w₀ (w.step primitives (.decrypt x s.sealed (.ok own))).1
        (if s.chain = w.steps x then drawn else own :: drawn) ∧
      w.Arrival x s own (w.step primitives (.decrypt x s.sealed (.ok own))).1 := by
  obtain ⟨h, arrival⟩ := r.lockstep.arrives r.distinct correct hs hsender hnot hreach own
  have hunforged := unforged_of_genuine r.lockstep hs x (.ok own)
  refine ⟨⟨r.reaches.tail hunforged, h, ?_, ?_⟩, arrival⟩
  · rw [arrival.ratchets, r.ratchets]
  · split
    · exact r.nodup
    · exact List.nodup_cons.mpr ⟨hfresh, r.nodup⟩

/-- A frame of the peer's next chain arrives, when at most 1 000 frames are missing before
    it in either chain. -/
theorem opens_next (r : Run w₀ w drawn) (x : Party) {k : Nat} (hsteps : w.steps x = k)
    {s : Sealing Letter} (hs : s ∈ w.sentIn x.peer (k + 1)) (hnumber : s.number ≤ 1000)
    (hmissing : (w.sentIn x.peer k).length ≤ w.received x + 1000) (own : Nat)
    (hfresh : own ∉ drawn) :
    Run w₀ (w.step primitives (.decrypt x s.sealed (.ok own))).1 (own :: drawn) ∧
      w.Arrival x s own (w.step primitives (.decrypt x s.sealed (.ok own))).1 := by
  subst hsteps
  obtain ⟨hmem, hsender, hchain⟩ := World.mem_sentIn.mp hs
  have hnot : ¬ w.Passed x s := World.not_passed_of_lt (by omega)
  have hreach : w.InReach x s := .inr ⟨hchain, hnumber, by omega⟩
  have hopens := r.opens hmem hsender hnot hreach own hfresh
  rw [if_neg (by omega)] at hopens
  exact hopens

/-- A frame of the current chain arrives, when at most 1 000 frames are missing before it. -/
theorem opens_current (r : Run w₀ w drawn) (x : Party) {k : Nat} (hsteps : w.steps x = k)
    {s : Sealing Letter} (hs : s ∈ w.sentIn x.peer k) (hahead : w.received x ≤ s.number)
    (hnear : s.number ≤ w.received x + 1000) (own : Nat) (hfresh : own ∉ drawn) :
    Run w₀ (w.step primitives (.decrypt x s.sealed (.ok own))).1 drawn ∧
      w.Arrival x s own (w.step primitives (.decrypt x s.sealed (.ok own))).1 := by
  subst hsteps
  obtain ⟨hmem, hsender, hchain⟩ := World.mem_sentIn.mp hs
  have hnot : ¬ w.Passed x s := World.not_passed_of_le (by omega) (by omega)
  have hopens := r.opens hmem hsender hnot (.inl ⟨hchain, by omega⟩) own hfresh
  rw [if_pos hchain] at hopens
  exact hopens

end Run

/-- Conversations start. -/
theorem exists_run : ∃ w₀ : World Letter Nat,
    World.start primitives sharedKey 1 2 = .ok w₀ ∧ Run w₀ w₀ [2, 1] ∧
    w₀.steps = (fun _ => 0) ∧ w₀.log = [] := by
  obtain ⟨w₀, hstart, -, hratchets, hsteps, hlog⟩ := exists_start sharedKey
  exact ⟨w₀, hstart, ⟨.refl, World.Lockstep.start hstart, hratchets, by decide⟩, hsteps, hlog⟩

/-- The initiator has sealed `n` frames right after the start, and nothing else has
    happened. -/
structure FirstChain (w₀ : World Letter Nat) (n : Nat) (w : World Letter Nat) : Prop where
  start : World.start primitives sharedKey 1 2 = .ok w₀
  sealed : w = w₀.sealMany primitives .initiator nonce plaintext n
  run : Run w₀ w [2, 1]
  steps : ∀ x, w.steps x = 0
  length : (w.sentIn .initiator 1).length = n
  sealings : w.sealings.length ≤ n
  opened : w.openedBy .responder = []

theorem exists_firstChain (n : Nat) (hn : n ≤ 2000) : ∃ w₀ w, FirstChain w₀ n w := by
  obtain ⟨w₀, hstart, r₀, hsteps, hlog⟩ := exists_run
  have hchain : w₀.sendingChain .initiator = 1 := by
    rw [World.sendingChain, hsteps]
  obtain ⟨h, more⟩ := r₀.lockstep.sealMany (x := .initiator) total (Nat.le_of_eq hchain.symm)
    nonce plaintext (n := n) (by rw [sentIn_start hlog, List.length_nil, Nat.zero_add]; exact hn)
  refine ⟨w₀, _, hstart, rfl, ⟨World.sealMany_reaches w₀ nonce plaintext (fun _ => trivial) n, h,
    more.ratchets.trans r₀.ratchets, r₀.nodup⟩, fun x => ?_, ?_, ?_, ?_⟩
  · rw [more.steps, hsteps]
  · rw [← hchain, more.sent, sentIn_start hlog, List.length_nil, Nat.zero_add]
  · have hle := List.length_filterMap_le Record.sealing?
      (w₀.sealMany primitives .initiator nonce plaintext n).log
    rw [more.log, hlog, List.length_nil, Nat.zero_add] at hle
    exact hle
  · rw [more.opened, World.openedBy, hlog]
    rfl

namespace FirstChain

variable {w₀ w : World Letter Nat} {n : Nat} {s : Sealing Letter}

theorem exists_frame (c : FirstChain w₀ n w) {i : Nat} (hi : i < n) :
    ∃ s ∈ w.sentIn .initiator 1, s.number = i :=
  c.run.lockstep.exists_number (by rw [c.length]; exact hi)

theorem honest (c : FirstChain w₀ n w) :
    Machine.Reaches (World.step primitives) (World.Honest primitives) w₀ w := by
  rw [c.sealed]
  exact World.sealMany_reaches _ _ _ (fun _ => trivial) _

/-- The peer of the initiator has sealed nothing. -/
theorem sentIn_responder (c : FirstChain w₀ n w) : w.sentIn .responder 1 = [] := by
  refine c.run.lockstep.sentIn_eq_nil ?_
  have hsending : w.sendingChain .responder = 0 := c.steps _
  omega

/-- Up to 1 000 lost frames leave neither party deaf. -/
theorem not_deaf (c : FirstChain w₀ n w) (hn : n ≤ 1000) (x : Party) : ¬ w.Deaf x := by
  rw [World.Deaf, c.steps, c.run.lockstep.sentIn_zero, List.length_nil]
  cases x with
  | initiator =>
    show ¬ (_ ∨ 1000 < (w.sentIn .responder 1).length)
    rw [c.sentIn_responder, List.length_nil]
    omega
  | responder =>
    show ¬ (_ ∨ 1000 < (w.sentIn .initiator 1).length)
    rw [c.length]
    omega

/-- More make the responder deaf. -/
theorem deaf (c : FirstChain w₀ n w) (hn : 1000 < n) : w.Deaf .responder := by
  refine .inr ?_
  rw [c.steps]
  show 1000 < (w.sentIn .initiator 1).length
  rw [c.length]
  exact hn

/-- No frame was passed yet. -/
theorem not_passed (c : FirstChain w₀ n w) (hs : s ∈ w.sealings) (x : Party) : ¬ w.Passed x s := by
  have hpos := (c.run.lockstep.genuine s hs).chain_pos
  exact World.not_passed_of_lt (by rw [c.steps]; exact hpos)

theorem mem_unopened (c : FirstChain w₀ n w) (hs : s ∈ w.sealings)
    (hsender : s.sender = .initiator) : s ∈ w.unopened .responder := by
  refine World.mem_unopened.mpr ⟨hs, hsender, ?_⟩
  rw [c.opened]
  exact List.not_mem_nil

theorem length_unopened_le (c : FirstChain w₀ n w) : (w.unopened .responder).length ≤ n :=
  (List.length_filter_le _ _).trans c.sealings

/-- The responder may open the frames up to the number 1 000 first. -/
theorem inReach (c : FirstChain w₀ n w) (hs : s ∈ w.sentIn .initiator 1)
    (hnumber : s.number ≤ 1000) : w.InReach .responder s := by
  obtain ⟨-, -, hchain⟩ := World.mem_sentIn.mp hs
  refine .inr ⟨by rw [c.steps, hchain], hnumber, ?_⟩
  rw [c.steps, c.run.lockstep.sentIn_zero, List.length_nil, Nat.zero_sub]
  exact Nat.zero_le _

/-- A frame that arrives first starts the first chain of the responder. -/
theorem opens (c : FirstChain w₀ n w) (hs : s ∈ w.sentIn .initiator 1) (hnumber : s.number ≤ 1000) :
    Run w₀ (w.step primitives (.decrypt .responder s.sealed (.ok 3))).1 [3, 2, 1] ∧
      w.Arrival .responder s 3 (w.step primitives (.decrypt .responder s.sealed (.ok 3))).1 ∧
      (w.step primitives (.decrypt .responder s.sealed (.ok 3))).1.sendingChain .responder = 1 ∧
      (w.step primitives (.decrypt .responder s.sealed (.ok 3))).1.sentIn .responder 1 = [] := by
  obtain ⟨r, a⟩ := c.run.opens_next .responder (c.steps _) hs hnumber
    (by rw [c.run.lockstep.sentIn_zero]; exact Nat.zero_le _) 3 (by decide)
  have hsending : w.sendingChain .responder = 0 := c.steps _
  obtain ⟨hchain, hempty⟩ := a.sending_next c.run.lockstep
    (by rw [c.steps, (World.mem_sentIn.mp hs).2.2])
  rw [hsending] at hchain hempty
  exact ⟨r, a, hchain, hempty⟩

end FirstChain

end Symbolic
end Quietwire
