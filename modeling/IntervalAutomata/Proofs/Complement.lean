import IntervalAutomata.Proofs.Completion

/-! # The complement accepts what is rejected

In a completed automaton each word ends in one state, so swapping acceptance swaps the language for its
complement among the words over the alphabet. -/

namespace IntervalAutomata

namespace Automaton

variable {a b m : Automaton} {c p q : Nat} {w : List Nat}

/-! ## Swapping acceptance -/

theorem isAccepting_flip (hp : p < a.size) : a.flip.isAccepting p = !a.isAccepting p := by
  have hp : p < a.states.size := hp
  simp [flip, forget, isAccepting, state, Array.getD_eq_getD_getElem?, hp]

theorem transitions_flip (p : Nat) : a.flip.transitions p = a.transitions p := by
  simp [flip, forget, transitions, state, Array.getD_eq_getD_getElem?]
  cases a.states[p]? <;> rfl

theorem size_flip : a.flip.size = a.size := by
  simp [flip, forget, size]

theorem step_flip : a.flip.Step p c q ↔ a.Step p c q := by
  rw [Step, transitions_flip, Step]

/-- Where each word ends in one state, the flipped automaton accepts the other words. -/
theorem Valid.mem_residual_flip (ha : a.Valid) (hf : a.Functional) (ht : a.Total) (hp : p < a.size) :
    w ∈ a.flip.residual p ↔ (∀ c ∈ w, c ≤ maxSymbol) ∧ w ∉ a.residual p := by
  induction w generalizing p with
  | nil =>
    rw [nil_mem_residual, nil_mem_residual, isAccepting_flip hp]
    simp
  | cons c w ih =>
    rw [cons_mem_residual, cons_mem_residual, List.forall_mem_cons]
    simp only [step_flip]
    constructor
    · intro ⟨q, hq, hw⟩
      obtain ⟨hall, hnot⟩ := (ih (ha.step_lt hq)).mp hw
      refine ⟨⟨ha.step_le_maxSymbol hq, hall⟩, ?_⟩
      intro ⟨r, hr, hw⟩
      exact hnot (hf p c q r hq hr ▸ hw)
    · intro ⟨⟨hc, hall⟩, hnot⟩
      obtain ⟨q, hq⟩ := ht p hp c hc
      exact ⟨q, hq, (ih (ha.step_lt hq)).mpr ⟨hall, fun hw => hnot ⟨q, hq, hw⟩⟩⟩

theorem WellFormed.flip (ha : a.WellFormed) : a.flip.WellFormed :=
  ha.of_transitions transitions_flip size_flip.ge (size_flip.symm ▸ ha.initial_lt) rfl rfl

/-! ## Complement -/

/-- **A complement accepts the words that were rejected**, whenever it is built. -/
theorem WellFormed.complement (ha : a.WellFormed) (h : a.complement.outcome = .ok m) :
    m.WellFormed ∧ m.language = {w | (∀ c ∈ w, c ≤ maxSymbol) ∧ w ∉ a.language} := by
  unfold Automaton.complement at h
  obtain ⟨b, hb, h⟩ := Build.outcome_bind_eq_ok.mp h
  obtain rfl := Build.outcome_reported.mp h
  obtain ⟨hwell, hfunctional, htotal, hlanguage⟩ := ha.totalize hb
  refine ⟨hwell.flip.trim, ?_⟩
  rw [hwell.flip.toValid.trim_language, ← hlanguage]
  ext w
  exact hwell.toValid.mem_residual_flip hfunctional htotal hwell.initial_lt

/-- A complement can be an operand where determinism is asked for. -/
theorem WellFormed.deterministic_complement (ha : a.WellFormed) (h : a.complement.outcome = .ok m) :
    m.deterministic = true := by
  obtain ⟨b, hb, h⟩ := Build.outcome_bind_eq_ok.mp h
  obtain rfl := Build.outcome_reported.mp h
  have hwell := (ha.totalize hb).1.flip
  refine hwell.trim.deterministic_iff.mpr (hwell.toValid.trim_separated fun p => ?_)
  rw [transitions_flip]
  exact ha.separated_totalize hb p

/-- **A deterministic automaton has a complement.** -/
theorem exists_complement (h : a.deterministic = true) : ∃ m, a.complement.outcome = .ok m :=
  ⟨_, Build.outcome_bind_eq_ok.mpr
    ⟨_, (outcome_totalize a).trans (if_pos h), Build.outcome_reported.mpr rfl⟩⟩

end Automaton

end IntervalAutomata
