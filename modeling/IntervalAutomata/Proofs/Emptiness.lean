import IntervalAutomata.Operation.Analysis
import IntervalAutomata.Proofs.Arrays
import IntervalAutomata.Proofs.Trim

/-! # Nothing, or nothing but the empty word

A word is accepted exactly when the initial state is live. The empty word is the only one exactly when
trimming leaves an accepting state without transitions: where no state is useless, every transition
lies on an accepted path, and without transitions only the initial state can be reached. -/

namespace IntervalAutomata.Automaton

variable {a : Automaton} {p q : Nat}

/-- **An automaton is empty when it accepts no word.** -/
theorem Valid.isEmpty_iff (ha : a.Valid) : a.isEmpty = true ↔ a.language = 0 := by
  rw [← not_live_initial_iff, isEmpty, isLive, ← ha.live_iff, Bool.not_eq_true', Bool.not_eq_true]

theorem transitionCount_eq_sum (a : Automaton) :
    a.transitionCount = ∑ q ∈ Finset.range a.size, (a.targets q).length := by
  have hsum : a.transitionCount = (a.states.toList.map fun s => s.transitions.length).sum := by
    rw [transitionCount, List.sum_eq_foldr, List.foldr_map]
  rw [hsum, sum_map_toList _ _ {}, size]
  refine Finset.sum_congr rfl fun q _ => ?_
  rw [targets, List.length_map]
  rfl

theorem transitionCount_eq_zero_iff : a.transitionCount = 0 ↔ ∀ p, a.transitions p = [] := by
  rw [transitionCount_eq_sum, Finset.sum_eq_zero_iff]
  constructor
  · intro h p
    by_cases hp : p < a.size
    · exact List.map_eq_nil_iff.mp (List.length_eq_zero_iff.mp (h p (Finset.mem_range.mpr hp)))
    · rw [transitions, state_of_size_le (Nat.le_of_not_lt hp)]
  · intro h p _
    rw [targets, h, List.map_nil, List.length_nil]

/-- Without transitions nothing is read. -/
theorem path_of_transitions_eq_nil (h : ∀ p, a.transitions p = []) {w : List Nat} :
    a.Path p w q ↔ w = [] ∧ p = q := by
  cases w with
  | nil => simp
  | cons c w =>
    refine iff_of_false (fun hw => ?_) (fun hw => nomatch hw.1)
    obtain ⟨r, ⟨t, ht, -⟩, -⟩ := path_cons_iff.mp hw
    rw [h] at ht
    cases ht

/-- Where nothing is useless, the empty word is alone in the language of a single accepting state. -/
theorem Trimmed.language_eq_one_iff (ht : a.Trimmed) (ha : a.Valid) :
    a.language = 1 ↔ a.size = 1 ∧ a.isAccepting a.initial = true ∧ a.transitionCount = 0 := by
  rw [transitionCount_eq_zero_iff]
  constructor
  · intro h
    have hnil : ∀ w ∈ a.language, w = [] := fun w hw => (Language.mem_one _).mp (h ▸ hw)
    have hnone : ∀ p, a.transitions p = [] := by
      intro p
      refine List.eq_nil_iff_forall_not_mem.mpr fun t hmem => ?_
      -- a transition lies on an accepted path, whose word is not empty
      have hstep : a.Step p t.interval.min t.target := ⟨t, hmem, (ha.proper p t hmem).contains_min, rfl⟩
      obtain ⟨⟨u, hu⟩, -⟩ := ht p hstep.source_lt
      obtain ⟨-, v, hv⟩ := ht t.target (ha.target_lt p t hmem)
      have hword := hnil (u ++ t.interval.min :: v)
        (append_mem_residual.mpr ⟨p, hu, cons_mem_residual.mpr ⟨_, hstep, hv⟩⟩)
      exact List.cons_ne_nil _ _ (List.append_eq_nil_iff.mp hword).2
    have hinitial : ∀ q < a.size, q = a.initial := by
      intro q hq
      obtain ⟨⟨w, hw⟩, -⟩ := ht q hq
      exact ((path_of_transitions_eq_nil hnone).mp hw).2.symm
    have hlt := ha.initial_lt
    have hfirst := hinitial 0 (by omega)
    have hlast := hinitial (a.size - 1) (by omega)
    have hempty : [] ∈ a.language := h ▸ Language.nil_mem_one
    exact ⟨by omega, nil_mem_residual.mp hempty, hnone⟩
  · intro ⟨_, haccept, hnone⟩
    ext w
    rw [Language.mem_one]
    constructor
    · intro ⟨_, hw, _⟩
      exact ((path_of_transitions_eq_nil hnone).mp hw).1
    · rintro rfl
      exact nil_mem_residual.mpr haccept

/-- **An automaton is that of the empty word when it accepts this word and no other one**, whether the
text is known or not. -/
theorem WellFormed.isEmptyString_iff (ha : a.WellFormed) : a.isEmptyString = true ↔ a.language = 1 := by
  unfold isEmptyString
  split
  · rename_i s hs
    rw [ha.known s hs, String.isEmpty_iff]
    constructor
    · rintro rfl
      rfl
    · intro h
      have hword : symbols s ∈ (1 : Language Symbol) := h ▸ rfl
      exact String.toList_eq_nil_iff.mp (List.map_eq_nil_iff.mp ((Language.mem_one _).mp hword))
  · dsimp only
    simp only [Bool.and_eq_true, beq_iff_eq, and_assoc]
    rw [← ha.trim_language]
    by_cases hlive : a.Live a.initial
    · exact ((ha.trimmed_trim hlive).language_eq_one_iff ha.trim_valid).symm
    · obtain ⟨hlive', -⟩ | ⟨-, heq⟩ := ha.trim_cases
      · exact absurd hlive' hlive
      · rw [heq]
        refine iff_of_false (by decide) fun h => ?_
        have hempty : [] ∈ empty.language := h ▸ Language.nil_mem_one
        exact not_live_empty empty.initial ⟨[], hempty⟩

end IntervalAutomata.Automaton
