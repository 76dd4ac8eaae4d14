import IntervalAutomata.Proofs.Cycles
import IntervalAutomata.Proofs.Emptiness
import Mathlib.Data.Set.Finite.Lattice
import Mathlib.Order.Interval.Finset.Nat

/-! # Finite languages

Where no way from a state goes on for ever, the words that are accepted from it start with one of
finitely many symbols and go on with one of finitely many words. Where nothing is useless, a cycle is on
an accepted path, and each number of times that the path goes around gives another word. The search for a
cycle always has an answer, and this tells the two apart. -/

namespace IntervalAutomata.Automaton

variable {a : Automaton} {p q : Nat} {u v x : List Nat}

/-! ## Ways along transitions -/

theorem reachable_of_leads (ha : a.Valid) (h : Leads a.targets a.initial q) : a.Reachable q := by
  induction h with
  | refl => exact ⟨[], .nil _⟩
  | tail _ hq ih =>
    obtain ⟨w, hw⟩ := ih
    obtain ⟨c, hc⟩ := (mem_targets_iff ha).mp hq
    exact ⟨w ++ [c], hw.snoc hc⟩

theorem exists_path_of_transGen (ha : a.Valid)
    (h : Relation.TransGen (fun n m => m ∈ a.targets n) p q) : ∃ w ≠ [], a.Path p w q := by
  induction h with
  | single hq =>
    obtain ⟨c, hc⟩ := (mem_targets_iff ha).mp hq
    exact ⟨[c], List.cons_ne_nil c [], .cons hc (.nil _)⟩
  | tail _ hq ih =>
    obtain ⟨w, -, hw⟩ := ih
    obtain ⟨c, hc⟩ := (mem_targets_iff ha).mp hq
    exact ⟨w ++ [c], List.append_ne_nil_of_right_ne_nil w (List.cons_ne_nil c []), hw.snoc hc⟩

/-- The search has an answer: it has met a cycle, or no way from the initial state goes on for ever. -/
theorem Valid.exists_isCyclic? (ha : a.Valid) :
    ∃ cyclic, a.isCyclic? = some cyclic ∧
      (cyclic = true → ∃ q, a.Reachable q ∧ ∃ w ≠ [], a.Path q w q) ∧
      (cyclic = false → Ends a.targets a.initial) := by
  have hlt : ∀ n, ∀ m ∈ a.targets n, m < a.size := by
    intro n m hm
    obtain ⟨c, hc⟩ := (mem_targets_iff ha).mp hm
    exact ha.step_lt hc
  have hfuel : ∑ q ∈ Finset.range a.size, ((a.targets q).length + 1) ≤ a.size + a.transitionCount := by
    rw [Finset.sum_add_distrib, ← transitionCount_eq_sum, Finset.sum_const, Finset.card_range,
      smul_eq_mul, Nat.mul_one, Nat.add_comm]
  obtain ⟨cyclic, hsome, hcycle, hends⟩ := meetsCycle?_spec ha.initial_lt hlt hfuel
  refine ⟨cyclic, hsome, fun h => ?_, hends⟩
  obtain ⟨q, hq, hback⟩ := hcycle h
  exact ⟨q, reachable_of_leads ha hq, exists_path_of_transGen ha hback⟩

/-! ## Words -/

/-- Only finitely many words are accepted where every way ends. -/
theorem finite_residual (h : Ends a.targets q) : {w | w ∈ a.residual q}.Finite := by
  induction h with
  | intro q _ ih =>
    have hsub : {w | w ∈ a.residual q} ⊆ {[]} ∪ ⋃ t ∈ {t | t ∈ a.transitions q},
        ⋃ c ∈ Set.Icc t.interval.min t.interval.max,
          (c :: ·) '' {w | w ∈ a.residual t.target} := by
      intro w hw
      cases w with
      | nil => exact .inl rfl
      | cons c w =>
        obtain ⟨_, ⟨t, ht, hc, rfl⟩, hw⟩ := cons_mem_residual.mp hw
        refine .inr (Set.mem_biUnion ht (Set.mem_biUnion ?_ ⟨w, hw, rfl⟩))
        exact Interval.contains_iff.mp hc
    refine ((Set.finite_singleton []).union ?_).subset hsub
    refine Set.Finite.biUnion (List.finite_toSet (a.transitions q)) fun t ht => ?_
    refine (Set.finite_Icc _ _).biUnion fun c _ => (ih t.target ?_).image _
    exact List.mem_map_of_mem ht

theorem path_around (hx : a.Path q x q) (n : Nat) : a.Path q (List.replicate n x).flatten q := by
  induction n with
  | zero => exact .nil q
  | succ n ih =>
    rw [List.replicate_succ, List.flatten_cons]
    exact hx.append ih

/-- A path can go around a cycle any number of times. -/
theorem infinite_of_cycle (hu : a.Path a.initial u q) (hx : a.Path q x q) (hne : x ≠ [])
    (hv : v ∈ a.residual q) : {w | w ∈ a.language}.Infinite := by
  have hinj : Function.Injective fun n => u ++ ((List.replicate n x).flatten ++ v) := by
    intro m n hmn
    have hlength := congrArg List.length hmn
    have hpos := List.length_pos_iff.mpr hne
    simp only [List.length_append, List.length_flatten, List.map_replicate, List.sum_replicate,
      smul_eq_mul] at hlength
    exact Nat.eq_of_mul_eq_mul_right hpos (by omega)
  refine Set.infinite_of_injective_forall_mem hinj fun n => ?_
  exact append_mem_residual.mpr ⟨q, hu, append_mem_residual.mpr ⟨q, path_around hx n, hv⟩⟩

/-- **Finiteness is decided.** The search for a cycle comes to its end, whatever the shape of the
automaton, and the answer is that the language is finite exactly when it is. -/
theorem Valid.finiteness_exact (ha : a.Valid) :
    (∃ cyclic, a.trim.isCyclic? = some cyclic ∧ a.isFinite = !cyclic) ∧
    (a.isFinite = true ↔ {w | w ∈ a.language}.Finite) := by
  obtain ⟨cyclic, hsome, hcycle, hends⟩ := ha.trim_valid.exists_isCyclic?
  have hanswer : a.isFinite = !cyclic := by rw [isFinite, hsome]
  refine ⟨⟨cyclic, hsome, hanswer⟩, ?_⟩
  rw [hanswer, ← ha.trim_language]
  cases cyclic with
  | false => exact iff_of_true rfl (finite_residual (hends rfl))
  | true =>
    refine iff_of_false nofun ?_
    obtain ⟨q, ⟨u, hu⟩, x, hne, hx⟩ := hcycle rfl
    obtain ⟨hlive, -⟩ | ⟨-, heq⟩ := ha.trim_cases
    · have hq := ha.trim_valid.path_lt hu ha.trim_valid.initial_lt
      obtain ⟨-, v, hv⟩ := ha.trimmed_trim hlive q hq
      exact infinite_of_cycle hu hx hne hv
    · -- nothing is left to go around in
      rw [heq] at hx
      cases hx with
      | nil => exact absurd rfl hne
      | cons hs _ =>
        obtain ⟨t, ht, -⟩ := hs
        rw [transitions_empty] at ht
        cases ht

/-- Two ways that join, a branch that goes around in vain, and a state that goes around without being
reached. -/
def detours : Automaton :=
  .ofStates [⟨false, [⟨⟨97, 97⟩, 1⟩, ⟨⟨97, 98⟩, 2⟩, ⟨⟨98, 98⟩, 4⟩]⟩, ⟨false, [⟨⟨97, 98⟩, 3⟩]⟩,
    ⟨false, [⟨⟨98, 99⟩, 3⟩]⟩, ⟨true, []⟩, ⟨false, [⟨⟨98, 98⟩, 4⟩]⟩,
    ⟨false, [⟨⟨97, 97⟩, 3⟩, ⟨⟨97, 97⟩, 5⟩]⟩] 0

theorem finiteness_detours : detours.Valid ∧ detours.deterministic = false ∧
    detours.trim.isCyclic? = some false ∧ {w | w ∈ detours.language}.Finite := by
  have ha : detours.Valid := by decide
  have hanswer : detours.isFinite = true := by decide +kernel
  obtain ⟨⟨cyclic, hsome, hcyclic⟩, hfinite⟩ := ha.finiteness_exact
  rw [hanswer] at hcyclic
  cases cyclic with
  | false => exact ⟨ha, rfl, hsome, hfinite.mp hanswer⟩
  | true => cases hcyclic

end IntervalAutomata.Automaton
