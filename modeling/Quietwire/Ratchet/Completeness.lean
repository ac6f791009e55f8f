/-
  Quietwire.Ratchet.Completeness

  Within the skip budget no limit is hit: every frame that its receiver has not
  opened yet opens.
-/
import Quietwire.Symbolic.Dialogue

namespace Quietwire

variable {α σ : Type} [DecidableEq α] [Octet α] {P : Primitives α σ} {sharedKey : SecretKey α}

/-- Delivery completeness within the skip budget: when at every delivery of an outstanding
    frame at most 1 000 others are outstanding, a frame that its receiver has not opened
    opens to its plaintext. -/
theorem delivery_complete (correct : CorrectPrimitives P) {signedPrekey ownRatchet : σ}
    {w₀ w : World α σ} (hstart : World.start P sharedKey signedPrekey ownRatchet = .ok w₀)
    (hreaches : Machine.Reaches (World.step P) (World.Budgeted P) w₀ w)
    (hdistinct : (w.ratchets.map (publicKey P)).Nodup) {x : Party} {s : Sealing α}
    (hs : s ∈ w.unopened x) (hbudget : (w.others x s).length ≤ 1000) (own : σ) :
    (w.step P (.decrypt x s.sealed (.ok own))).2 = .opened (.ok s.plaintext) := by
  obtain ⟨h, hst⟩ := World.stocked_reaches correct hstart hreaches hdistinct
  obtain ⟨key, s', run, -⟩ := h.decrypts correct (hst x s hs) hdistinct hs hbudget own
  rw [World.step, World.decrypt_of_decrypted run]

/-- A frame opens that arrives before an earlier one of its chain, and so does a late frame of
    a chain that was closed, while another frame is outstanding. -/
theorem delivery_complete_symbolic : ∃ d : Symbolic.Dialogue,
    (d.a₀ ∈ d.w₂.others .responder d.a₁ ∧ d.a₀.number < d.a₁.number ∧
      (d.w₂.step Symbolic.primitives (.decrypt .responder d.a₁.sealed (.ok 3))).2
        = .opened (.ok d.a₁.plaintext)) ∧
    d.a₀.chain < d.w₈.steps .responder ∧ d.a₂ ∈ d.w₈.unopened .responder ∧ d.a₂ ≠ d.a₀ ∧
      (d.w₈.step Symbolic.primitives (.decrypt .responder d.a₀.sealed (.ok 6))).2
        = .opened (.ok d.a₀.plaintext) := by
  obtain ⟨d⟩ := Symbolic.exists_dialogue
  have hnumbers : d.a₀.number < d.a₁.number := by
    rw [d.number_a₀, d.number_a₁]
    decide
  have hchains : d.a₂ ≠ d.a₀ := by
    intro heq
    have hchain := d.chain_a₂
    rw [heq, d.chain_a₀] at hchain
    cases hchain
  refine ⟨d, ⟨World.mem_others.mpr ⟨d.unopened_a₀, fun heq => ?_⟩, hnumbers, ?_⟩, ?_,
    d.unopened₈_a₂, hchains, ?_⟩
  · rw [Sealing.number_eq_of_sealed heq] at hnumbers
    exact Nat.lt_irrefl _ hnumbers
  · exact delivery_complete Symbolic.correct d.start d.talk₂.budgeted d.talk₂.distinct
      d.seals_a₁.unopened d.talk₂.length_others_le 3
  · rw [d.chain_a₀, d.steps₈]
    decide
  · exact delivery_complete Symbolic.correct d.start d.talk₈.budgeted d.talk₈.distinct
      d.unopened₈_a₀ d.talk₈.length_others_le 6

end Quietwire
