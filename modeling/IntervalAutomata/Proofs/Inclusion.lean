import IntervalAutomata.Operation.Analysis
import IntervalAutomata.Proofs.Product
import IntervalAutomata.Proofs.SubsetConstruction
import Mathlib.Data.Finset.Option

/-! # Inclusion of languages

On a segment between two boundaries neither state of a pair changes its move, so the first symbol of a
segment stands for all of it, and the pairs that are found are those in which two walks over one word
end; the right walk may have ended before. A word that is accepted on the left alone is a pair that
violates the inclusion. There are only so many pairs, so the search ends at such a pair or without one. -/

namespace IntervalAutomata.Automaton

open Exploration

variable {a b : Automaton} {w : List Nat} {x : Nat × Option Nat}

instance : Std.TransCmp simulationOrder :=
  inferInstanceAs (Std.TransCmp (compareLex _ _))

instance : Std.LawfulEqCmp simulationOrder where
  compare_self := Std.ReflCmp.compare_self
  eq_of_compare {x y} h := by
    simp only [simulationOrder, compareLex_eq_eq, compareOn, Std.LawfulEqCmp.compare_eq_iff_eq] at h
    exact Prod.ext h.1 h.2

/-! ## Pairs -/

/-- Both states of a pair move on one symbol, and the left one has to. -/
theorem Valid.mem_simulationRow (ha : a.Valid) (hsa : a.Separated) (hb : b.Valid) (hsb : b.Separated)
    {e : Unit × (Nat × Option Nat)} : e ∈ (simulationRow a b x).edges ↔
      ∃ c, a.step x.1 c = some e.2.1 ∧ e.2.2 = x.2.bind fun r => b.step r c := by
  generalize hright : (x.2.map b.transitions).getD [] = right
  have hcut : ∀ {cut c},
      cut ∈ segments (boundaries ((a.transitions x.1 ++ right).map (·.interval))) →
      cut.contains c = true → a.step x.1 c = a.step x.1 cut.min ∧
        (x.2.bind fun r => b.step r c) = x.2.bind fun r => b.step r cut.min := by
    intro cut c hmem hc
    have hsame : ∀ t ∈ a.transitions x.1 ++ right,
        (t.interval.contains c = true ↔ t.interval.contains cut.min = true) := fun t ht =>
      contains_iff_contains_min hmem (List.mem_map_of_mem ht) hc
    refine ⟨ha.step_eq_step hsa fun t ht => hsame t (List.mem_append_left _ ht),
      Option.bind_congr fun r hr => hb.step_eq_step hsb fun t ht => hsame t ?_⟩
    rw [hr] at hright
    exact List.mem_append_right _ (hright ▸ ht)
  simp only [simulationRow, hright, Row.plain, List.mem_map, List.mem_filterMap,
    Option.map_eq_some_iff]
  constructor
  · rintro ⟨_, ⟨cut, -, r, hr, rfl⟩, rfl⟩
    exact ⟨cut.min, hr, rfl⟩
  · rintro ⟨c, hstep, hbind⟩
    obtain ⟨t, ht, hc, -⟩ := (ha.step_eq_some_iff hsa).mp hstep
    obtain ⟨cut, hmem, hcontains⟩ :=
      exists_segment_of_contains (List.mem_map_of_mem (List.mem_append_left right ht)) hc
    obtain ⟨hleft, hbind'⟩ := hcut hmem hcontains
    refine ⟨e.2, ⟨cut, hmem, e.2.1, hleft ▸ hstep, ?_⟩, rfl⟩
    rw [← hbind', ← hbind]

/-- The pairs that are found are those in which two walks over one word end. -/
theorem Valid.reaches_simulation_iff (ha : a.Valid) (hsa : a.Separated) (hb : b.Valid)
    (hsb : b.Separated) : Reaches (simulationRow a b) [(a.initial, some b.initial)] x ↔
      ∃ w, a.walk a.initial w = some x.1 ∧ x.2 = b.walk b.initial w := by
  constructor
  · intro h
    induction h with
    | start hx => exact ⟨[], by rw [List.mem_singleton.mp hx]; exact ⟨rfl, rfl⟩⟩
    | @edge x e _ he ih =>
      obtain ⟨w, hleft, hright⟩ := ih
      obtain ⟨c, hstep, hbind⟩ := (ha.mem_simulationRow hsa hb hsb).mp he
      refine ⟨w ++ [c], ?_, ?_⟩
      · rw [walk_concat, hleft, Option.bind_some, hstep]
      · rw [walk_concat, hbind, hright]
  · intro ⟨w, hleft, hright⟩
    induction w using List.reverseRecOn generalizing x with
    | nil =>
      obtain ⟨left, right⟩ := x
      exact .start (List.mem_singleton.mpr (Prod.ext (Option.some.inj hleft).symm hright))
    | append_singleton w c ih =>
      rw [walk_concat] at hleft hright
      obtain ⟨p, hp, hstep⟩ := Option.bind_eq_some_iff.mp hleft
      have hpair := ih (x := (p, b.walk b.initial w)) hp rfl
      exact hpair.edge (d := ((), x)) ((ha.mem_simulationRow hsa hb hsb).mpr ⟨c, hstep, hright⟩)

theorem Valid.bounded_simulationRow (ha : a.Valid) (hsa : a.Separated) (hb : b.Valid)
    (hsb : b.Separated) :
    Bounded (simulationRow a b) [(a.initial, some b.initial)] (a.size * (b.size + 1)) := by
  have hcard : (Finset.range a.size ×ˢ (Finset.range b.size).insertNone).card =
      a.size * (b.size + 1) := by
    rw [Finset.card_product, Finset.card_insertNone, Finset.card_range, Finset.card_range]
  rw [← hcard]
  refine bounded_of_mem fun x hx => ?_
  obtain ⟨w, hleft, hright⟩ := (ha.reaches_simulation_iff hsa hb hsb).mp hx
  rw [Finset.mem_product, Finset.mem_insertNone, Finset.mem_range]
  refine ⟨ha.path_lt ((ha.walk_eq_some_iff hsa).mp hleft) ha.initial_lt, fun r hr => ?_⟩
  rw [Option.mem_def, hright, hb.walk_eq_some_iff hsb] at hr
  exact Finset.mem_range.mpr (hb.path_lt hr hb.initial_lt)

/-! ## Violations -/

/-- No pair violates the inclusion exactly when it holds. -/
theorem Valid.not_isViolation_iff (ha : a.Valid) (hsa : a.Separated) (hb : b.Valid)
    (hsb : b.Separated) :
    (∀ x, Reaches (simulationRow a b) [(a.initial, some b.initial)] x → isViolation a b x = false) ↔
      ∀ w, w ∈ a.language → w ∈ b.language := by
  simp only [ha.reaches_simulation_iff hsa hb hsb, ← ha.walk_any_iff hsa, ← hb.walk_any_iff hsb]
  constructor
  · intro h w hw
    obtain ⟨p, hp, haccept⟩ := Option.any_eq_true _ _ |>.mp hw
    have hpair := h (p, b.walk b.initial w) ⟨w, hp, rfl⟩
    rw [isViolation, haccept] at hpair
    simpa using hpair
  · intro h x ⟨w, hleft, hright⟩
    rw [isViolation, hright, Bool.and_eq_false_imp]
    intro haccept
    rw [h w (by rw [hleft]; exact haccept)]
    rfl

/-- The search for a violation halts, and its answer is whether it came to the end. -/
theorem Valid.exists_simulation (ha : a.Valid) (hsa : a.Separated) (hb : b.Valid)
    (hsb : b.Separated) :
    ∃ e : Exploration (Nat × Option Nat) Unit simulationOrder,
      exploreUntil? simulationOrder (a.size * (b.size + 1)) (isViolation a b) (simulationRow a b)
        [(a.initial, some b.initial)] = some e ∧
      Halted (simulationRow a b) [(a.initial, some b.initial)] (isViolation a b) e ∧
      isSimulated a b = e.next?.isNone := by
  obtain ⟨e, hsome, hhalted⟩ := exists_exploreUntil? simulationOrder (isViolation a b)
    (ha.bounded_simulationRow hsa hb hsb)
  refine ⟨e, hsome, hhalted, ?_⟩
  rw [isSimulated, hsome]

theorem Valid.isSimulated_iff (ha : a.Valid) (hsa : a.Separated) (hb : b.Valid)
    (hsb : b.Separated) : isSimulated a b = true ↔ ∀ w, w ∈ a.language → w ∈ b.language := by
  obtain ⟨e, -, hhalted, hanswer⟩ := ha.exists_simulation hsa hb hsb
  rw [hanswer, Option.isNone_iff_eq_none, hhalted.next?_eq_none_iff,
    ha.not_isViolation_iff hsa hb hsb]

theorem WellFormed.isSubsetOf_iff (ha : a.WellFormed) (hb : b.WellFormed) :
    (isSubsetOf a b).value = true ↔ ∀ w, w ∈ a.language → w ∈ b.language := by
  obtain ⟨hp, hdp, hap⟩ := ha.determinizeWith (outcome_determinize a)
  obtain ⟨hq, hdq, hbq⟩ := hb.determinizeWith (outcome_determinize b)
  rw [← hap, ← hbq, ← hp.toValid.isSimulated_iff (hp.separated hdp) hq.toValid (hq.separated hdq)]
  rfl

/-- **Inclusion and equality of languages are decided.** The search through the pairs of the two
determinized automata halts within as many pairs as there are; inclusion is affirmed when every word of
the left language is in the right one, and equality when both languages have the same words. -/
theorem WellFormed.inclusion_exact (ha : a.WellFormed) (hb : b.WellFormed) :
    (∃ e : Exploration (Nat × Option Nat) Unit simulationOrder,
      let p := a.determinize.value
      let q := b.determinize.value
      exploreUntil? simulationOrder (p.size * (q.size + 1)) (isViolation p q) (simulationRow p q)
        [(p.initial, some q.initial)] = some e ∧
      Halted (simulationRow p q) [(p.initial, some q.initial)] (isViolation p q) e ∧
      (isSubsetOf a b).value = e.next?.isNone) ∧
    ((isSubsetOf a b).value = true ↔ ∀ w, w ∈ a.language → w ∈ b.language) ∧
    ((sameLanguage a b).value = true ↔ ∀ w, w ∈ a.language ↔ w ∈ b.language) := by
  refine ⟨?_, ha.isSubsetOf_iff hb, ?_⟩
  · obtain ⟨hp, hdp, -⟩ := ha.determinizeWith (outcome_determinize a)
    obtain ⟨hq, hdq, -⟩ := hb.determinizeWith (outcome_determinize b)
    exact hp.toValid.exists_simulation (hp.separated hdp) hq.toValid (hq.separated hdq)
  · have hvalue : (sameLanguage a b).value = ((isSubsetOf a b).value && (isSubsetOf b a).value) := by
      rw [sameLanguage, Journal.value_bind]
      cases (isSubsetOf a b).value <;> rfl
    rw [hvalue, Bool.and_eq_true, ha.isSubsetOf_iff hb, hb.isSubsetOf_iff ha, ← forall_and]
    exact forall_congr' fun w => iff_iff_implies_and_implies.symm

/-- As `branching`, except that one of its symbols does not lead back. -/
def gapped : Automaton :=
  .ofStates [⟨false, [⟨⟨97, 97⟩, 0⟩, ⟨⟨98, 100⟩, 1⟩, ⟨⟨99, 99⟩, 0⟩]⟩, ⟨true, []⟩] 0

theorem inclusion_gapped : gapped.WellFormed ∧ branching.WellFormed ∧
    gapped.deterministic = false ∧ branching.deterministic = false ∧
    (∀ w, w ∈ gapped.language → w ∈ branching.language) ∧
    ¬ ∀ w, w ∈ gapped.language ↔ w ∈ branching.language := by
  have ha : gapped.WellFormed := wellFormed_ofStates (by decide)
  have hb : branching.WellFormed := wellFormed_ofStates (by decide)
  have hanswers : (isSubsetOf gapped branching).value = true ∧
      (sameLanguage gapped branching).value = false := by decide +kernel
  obtain ⟨-, hsubset, hsame⟩ := ha.inclusion_exact hb
  refine ⟨ha, hb, rfl, rfl, hsubset.mp hanswers.1, fun h => ?_⟩
  rw [← hsame, hanswers.2] at h
  cases h

end IntervalAutomata.Automaton
