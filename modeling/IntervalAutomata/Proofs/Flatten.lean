import IntervalAutomata.Graph.Flatten
import IntervalAutomata.Proofs.Closure
import IntervalAutomata.Proofs.Construction
import IntervalAutomata.Proofs.GraphSearch

/-! # Flattening keeps the language

A word that starts with a symbol is spelled by empty steps to some node, one of its edges, and a path
behind it. So what the paths from a node to the exit spell unfolds along the node's outlook, and the
automaton over the outlooks accepts just that. Its states are numbered breadth first along the
transitions it has in the end. -/

namespace IntervalAutomata.Graph

variable {g : Graph} {n m t c : Nat} {w : List Nat} {region : Set Nat} {f : Fragment}
variable {l : Language Symbol} {labels : Interval → Prop}

theorem path_cons_iff : g.Path n (c :: w) t ↔ ∃ m, g.Path n [] m ∧
    ∃ e ∈ (g.node m).edges, e.interval.contains c = true ∧ g.Path e.target w t := by
  constructor
  · intro h
    generalize hv : c :: w = v at h
    induction h with
    | nil => cases hv
    | skip hk _ ih =>
      obtain ⟨m, hm, he⟩ := ih hv
      exact ⟨m, .skip hk hm, he⟩
    | @read n e _ _ _ he hc hp =>
      cases hv
      exact ⟨n, .nil n, e, he, hc, hp⟩
  · intro ⟨m, hm, e, he, hc, hp⟩
    exact hm.append (.read he hc hp)

theorem Realizes.mem_closure (h : g.Realizes labels region f l) (hn : n ∈ region) :
    m ∈ g.closure n ↔ g.Path n [] m :=
  Graph.mem_closure h.closed h.lt hn

theorem Realizes.mem_outlook (h : g.Realizes labels region f l) (hn : n ∈ region) {i : Interval} :
    (i, m) ∈ (g.outlook f.exit n).edges ↔ ∃ k, g.Path n [] k ∧ ⟨i, m⟩ ∈ (g.node k).edges := by
  simp only [outlook, outlookOn, List.mem_map, mem_ascending, List.mem_flatMap, h.mem_closure hn]
  constructor
  · intro hex
    obtain ⟨e, ⟨k, hk, he⟩, heq⟩ := hex
    cases heq
    exact ⟨k, hk, he⟩
  · intro hex
    obtain ⟨k, hk, he⟩ := hex
    exact ⟨_, ⟨k, hk, he⟩, rfl⟩

theorem Realizes.accept_outlook (h : g.Realizes labels region f l) (hn : n ∈ region) :
    (g.outlook f.exit n).accept = true ↔ g.Path n [] f.exit := by
  rw [← h.mem_closure hn]
  exact List.contains_iff_mem

theorem Realizes.leads_outlook (h : g.Realizes labels region f l) (hn : n ∈ region) :
    (g.outlook f.exit n).Leads c m ↔ ∃ k, g.Path n [] k ∧
      ∃ e ∈ (g.node k).edges, e.interval.contains c = true ∧ e.target = m := by
  constructor
  · intro ⟨⟨i, _⟩, hd, hc, rfl⟩
    obtain ⟨k, hk, he⟩ := (h.mem_outlook hn).mp hd
    exact ⟨k, hk, _, he, hc, rfl⟩
  · rintro ⟨k, hk, e, he, hc, rfl⟩
    exact ⟨(e.interval, e.target), (h.mem_outlook hn).mpr ⟨k, hk, he⟩, hc, rfl⟩

theorem Realizes.mem_of_reaches (h : g.Realizes labels region f l)
    (hn : Reaches (g.outlook f.exit) [f.entry] n) : n ∈ region := by
  induction hn with
  | start hx => exact List.mem_singleton.mp hx ▸ h.entry_mem
  | @edge x d _ hd ih =>
    obtain ⟨k, hk, he⟩ := (h.mem_outlook ih).mp hd
    exact h.closed k (h.closed.path_mem ih hk) _ (mem_wires.mpr (.inl ⟨_, he, rfl⟩))

theorem Realizes.labels_outlook (h : g.Realizes labels region f l) (hn : n ∈ region) :
    ∀ d ∈ (g.outlook f.exit n).edges, labels d.1 := by
  intro ⟨i, m⟩ hd
  obtain ⟨k, hk, he⟩ := (h.mem_outlook hn).mp hd
  exact h.labels_edge k (h.closed.path_mem hn hk) _ he

theorem climbs_outlook (g : Graph) (exit n : Nat) : (g.outlook exit n).Climbs := by
  simp only [Row.Climbs, outlook, outlookOn, List.pairwise_map]
  exact (ascends_ascending _).imp fun hlt => (Transition.order_lt_iff.mp hlt).imp id And.left

/-! ## The automaton -/

/-- No more nodes than there are can be reached, so the exploration comes to its end. -/
theorem Realizes.explored (h : g.Realizes labels region f l) :
    Exploration.Explored (g.outlook f.exit) f.entry
      (exploreAll compare g.size (g.outlook f.exit) [f.entry]) :=
  exploreAll_explored (bounded_of_lt fun n hn => h.lt n (h.mem_of_reaches hn))

theorem outlookOn_congr {exit : Nat} {xs ys : List Nat} (h : ∀ n, n ∈ xs ↔ n ∈ ys) :
    g.outlookOn exit xs = g.outlookOn exit ys := by
  have hcontains : xs.contains exit = ys.contains exit := by
    rw [Bool.eq_iff_iff, List.contains_iff_mem, List.contains_iff_mem, h]
  have hedges : ascending Transition.order (xs.flatMap fun n => (g.node n).edges) =
      ascending Transition.order (ys.flatMap fun n => (g.node n).edges) :=
    ascending_congr fun e => by simp only [List.mem_flatMap, h]
  rw [outlookOn, outlookOn, hcontains, hedges]

/-- Handing the buffer on changes nothing. -/
theorem Realizes.exploreCarrying_eq (h : g.Realizes labels region f l) :
    exploreCarrying compare (g.outlookNext f.exit) g.size (.new g.size) f.entry =
      exploreAll compare g.size (g.outlook f.exit) [f.entry] := by
  refine IntervalAutomata.exploreCarrying_eq (Closure.Idle g)
    (bounded_of_lt fun n hn => h.lt n (h.mem_of_reaches hn)) ?_ (Closure.idle_new g)
  intro c n hc hn
  obtain ⟨hidle, hmem⟩ := hc.compute h.closed h.lt (h.mem_of_reaches hn)
  exact ⟨outlookOn_congr fun m => Array.mem_toList_iff.trans (hmem m), hidle⟩

theorem Realizes.arranges_outlook (h : g.Realizes labels region f l)
    {e : Exploration Nat Interval compare}
    (he : Exploration.Explored (g.outlook f.exit) f.entry e) :
    ∀ n ∈ e.items, Arranges labels id (e.outgoing (g.outlook f.exit) n) := fun n hn =>
  Exploration.arranges_id (h.labels_outlook (h.mem_of_reaches ((he.mem_items n).mp hn)))

/-- Flattening writes down what there is to see at the nodes it comes to. -/
theorem Realizes.states_toAutomaton (h : g.Realizes labels region f l) :
    (g.toAutomaton f).states =
        ((exploreAll compare g.size (g.outlook f.exit) [f.entry]).assembled id).states ∧
      (g.toAutomaton f).initial = 0 := by
  rw [Graph.toAutomaton, h.exploreCarrying_eq]
  exact h.explored.states_toAutomaton

/-- **Flattening keeps the language**, whatever the intervals on the edges. -/
theorem Realizes.language_toAutomaton (h : g.Realizes labels region f l) :
    (g.toAutomaton f).language = l := by
  have hexplored := h.explored
  obtain ⟨hstates, hinitial⟩ := h.states_toAutomaton
  rw [Automaton.language_congr hstates hinitial]
  generalize exploreAll compare g.size (g.outlook f.exit) [f.entry] = e at hexplored ⊢
  have hmem : ∀ {n}, n ∈ e.items → n ∈ region := fun hn =>
    h.mem_of_reaches ((hexplored.mem_items _).mp hn)
  rw [← h.spells_eq, Automaton.language]
  refine hexplored.residual_assembled (h.arranges_outlook hexplored)
    (fun n => g.spells n f.exit) ?_ ?_ hexplored.head
  · intro n hn
    exact (h.accept_outlook (hmem hn)).symm
  · intro n hn c w
    rw [mem_spells, path_cons_iff]
    simp only [h.leads_outlook (hmem hn)]
    constructor
    · intro hex
      obtain ⟨k, hk, e, he, hc, hw⟩ := hex
      exact ⟨_, ⟨k, hk, e, he, hc, rfl⟩, hw⟩
    · intro hex
      obtain ⟨_, ⟨k, hk, e, he, hc, rfl⟩, hw⟩ := hex
      exact ⟨k, hk, e, he, hc, hw⟩

theorem Realizes.breadthFirst_toAutomaton (h : g.Realizes labels region f l) :
    BreadthFirst (g.toAutomaton f).targets (g.toAutomaton f).size := by
  obtain ⟨hstates, -⟩ := h.states_toAutomaton
  rw [funext (Automaton.targets_congr hstates), Automaton.size, hstates]
  exact h.explored.breadthFirst_edges fun n _ => g.climbs_outlook f.exit n

/-- Unless some interval has its ends inverted, the mark agrees as well. -/
theorem Realizes.toAutomaton_eq (h : g.Realizes labels region f l)
    (hends : ∀ i, labels i → i.min ≤ i.max) :
    g.toAutomaton f = (exploreAll compare g.size (g.outlook f.exit) [f.entry]).assembled id := by
  rw [Graph.toAutomaton, h.exploreCarrying_eq]
  exact h.explored.toAutomaton_eq fun i t ht =>
    hends _ (h.explored.labels_assembled (h.arranges_outlook h.explored) i t ht)

theorem plain_toAutomaton (g : Graph) (f : Fragment) : (g.toAutomaton f).Plain :=
  Exploration.plain_toAutomaton _

theorem Realizes.toAutomaton (h : g.Realizes Interval.Proper region f l) :
    (g.toAutomaton f).WellFormed ∧ (g.toAutomaton f).language = l := by
  refine ⟨?_, h.language_toAutomaton⟩
  rw [h.toAutomaton_eq fun i hi => hi.min_le_max]
  exact Automaton.wellFormed_ofStates (h.explored.valid_assembled (h.arranges_outlook h.explored))

end IntervalAutomata.Graph
