import IntervalAutomata.Proofs.Combinators
import IntervalAutomata.Proofs.Flatten
import IntervalAutomata.Proofs.Running

/-! # Flattening any fragment

Both searches come to their end: the one along empty steps marks every node it enters, and the one that
makes states enters no node twice. So flattening asks nothing of a graph but that its wires lead to
nodes. Only a run needs more, as an interval with inverted ends can hide an overlap from the
determinism mark. -/

namespace IntervalAutomata.Graph

variable {g : Graph} {f : Fragment} {n : Nat}

/-- Empty steps are followed to their end, through each node once. -/
theorem InRange.closure_spec (hg : g.InRange) (hn : n < g.size) :
    (g.closure n).Nodup ∧ ∀ m, m ∈ g.closure n ↔ g.Path n [] m := by
  have hclosed : g.Closed {n | n < g.size} := hg
  refine ⟨(search_spec (fun n _ => g.length_successors_le n) ?_).1, fun m => ?_⟩
  · intro m ⟨s, hs, hm⟩
    rw [List.mem_singleton.mp hs] at hm
    exact hclosed.path_mem hn (path_nil_iff.mpr hm)
  · exact mem_closure hclosed (fun _ h => h) hn

theorem InRange.runSymbols_toAutomaton (hg : g.InRange) (hf : g.Has f)
    (hends : ∀ n < g.size, ∀ e ∈ (g.node n).edges, e.interval.min ≤ e.interval.max)
    (w : List Symbol) : (g.toAutomaton f).runSymbols w = true ↔ w ∈ g.language f := by
  have h : g.Realizes (fun i => i.min ≤ i.max) {n | n < g.size} f (g.language f) :=
    { hg.realizes hf.entry_lt hf.exit_lt with labels_edge := hends }
  have htransitions := h.explored.labels_assembled (h.arranges_outlook h.explored)
  rw [← h.language_toAutomaton, h.toAutomaton_eq fun _ => id]
  exact Automaton.runSymbols_iff (Automaton.apart_ofStates htransitions) htransitions

/-- **Flattening is exact and canonical.** It comes to its end on every graph whose wires lead to nodes,
and what it returns accepts what the paths of the fragment spell, starts in state 0 and has its states
numbered in the order in which a sweep finds them. -/
theorem InRange.flatten_exact (hg : g.InRange) (hf : g.Has f) :
    (∀ n < g.size, (g.closure n).Nodup ∧ ∀ m, m ∈ g.closure n ↔ g.Path n [] m) ∧
    (∃ e, explore? compare g.size (g.outlook f.exit) [f.entry] = some e ∧ e.next? = none ∧
      (g.flatten f).value = e.toAutomaton) ∧
    (g.flatten f).value.language = g.language f ∧
    ((∀ n < g.size, ∀ e ∈ (g.node n).edges, e.interval.min ≤ e.interval.max) →
      ∀ w, (g.flatten f).value.runSymbols w = true ↔ g.Path f.entry w f.exit) ∧
    (g.flatten f).value.initial = 0 ∧
    (g.flatten f).value.reachable = List.range (g.flatten f).value.size := by
  have h := hg.realizes hf.entry_lt hf.exit_lt
  have hbounded := bounded_of_lt fun n hn => h.lt n (h.mem_of_reaches hn)
  have hinitial := h.states_toAutomaton.2
  refine ⟨fun n hn => hg.closure_spec hn,
    ⟨_, exploreAll_eq_some compare hbounded, h.explored.next?_eq_none, ?_⟩,
    h.language_toAutomaton, hg.runSymbols_toAutomaton hf, hinitial,
    Automaton.reachable_eq_range hinitial h.breadthFirst_toAutomaton⟩
  exact congrArg Exploration.toAutomaton h.exploreCarrying_eq

/-- Empty steps go round through the first three nodes. One edge is there twice and overlaps others.
Node 5 is found before node 3, so the states they become stand the other way round, and nothing leads
to node 7. -/
def tangled : Graph := ⟨#[
  ⟨[], [1, 2]⟩,
  ⟨[⟨⟨97, 99⟩, 4⟩, ⟨⟨97, 99⟩, 3⟩, ⟨⟨97, 99⟩, 4⟩], [0, 2]⟩,
  ⟨[⟨⟨98, 120⟩, 3⟩, ⟨⟨97, 97⟩, 5⟩], [1]⟩,
  ⟨[], [6]⟩,
  ⟨[⟨⟨100, 101⟩, 5⟩, ⟨⟨100, 101⟩, 3⟩], []⟩,
  ⟨[⟨⟨98, 98⟩, 5⟩], []⟩,
  ⟨[], []⟩,
  ⟨[⟨⟨99, 99⟩, 6⟩], [7, 0]⟩]⟩

theorem flatten_tangled : tangled.InRange ∧ tangled.Has ⟨0, 6⟩ ∧
    (tangled.flatten ⟨0, 6⟩).value.language = tangled.language ⟨0, 6⟩ ∧
    (tangled.flatten ⟨0, 6⟩).value.reachable = [0, 1, 2, 3] ∧
    (tangled.flatten ⟨0, 6⟩).value.transitions 3 = [⟨⟨100, 101⟩, 1⟩, ⟨⟨100, 101⟩, 2⟩] ∧
    tangled.Path 0 [97, 100] 6 ∧ ¬ tangled.Path 0 [97, 98] 6 := by
  have hrange : tangled.InRange := by decide
  have hf : tangled.Has ⟨0, 6⟩ := by decide
  obtain ⟨-, -, hlanguage, hrun, -, hsweep⟩ := hrange.flatten_exact hf
  have hsize : (tangled.flatten ⟨0, 6⟩).value.size = 4 := by decide +kernel
  rw [hsize] at hsweep
  have hpath := hrun (by decide)
  refine ⟨hrange, hf, hlanguage, hsweep, by decide +kernel, ?_, ?_⟩
  · exact (hpath [97, 100]).mp (by decide +kernel)
  · exact fun h => absurd ((hpath [97, 98]).mpr h) (by decide +kernel)

end IntervalAutomata.Graph
