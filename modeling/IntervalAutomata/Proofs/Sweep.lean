import IntervalAutomata.Automaton.Sweep
import IntervalAutomata.Proofs.BreadthFirst
import IntervalAutomata.Proofs.Paths

/-! # Reachable and live states

Both sweeps are explorations of state numbers, so the number of states bounds them. The forward sweep
lists the states on paths from the initial state; when the states are numbered breadth first it lists
them as they stand. The backward sweep marks the states with a non-empty residual. For that the numbers
have to name states and the intervals have to hold something (`InRange`), whatever the order of the
transitions. -/

namespace IntervalAutomata.Automaton

open Exploration

variable {a : Automaton} {p q : Nat}

theorem targets_congr {b : Automaton} (h : a.states = b.states) (p : Nat) :
    a.targets p = b.targets p := by
  rw [targets, targets, transitions, transitions, state_congr h]

/-! ## Forward -/

def Reachable (a : Automaton) (q : Nat) : Prop := ∃ w, a.Path a.initial w q

/-- Numbers name states and no interval has its ends inverted. -/
structure InRange (a : Automaton) : Prop where
  initial_lt : a.initial < a.size
  target_lt : ∀ p, ∀ t ∈ a.transitions p, t.target < a.size
  min_le_max : ∀ p, ∀ t ∈ a.transitions p, t.interval.min ≤ t.interval.max

theorem Valid.inRange (ha : a.Valid) : a.InRange :=
  ⟨ha.initial_lt, ha.target_lt, fun p t ht => (ha.proper p t ht).min_le_max⟩

theorem InRange.mem_targets_iff (ha : a.InRange) : q ∈ a.targets p ↔ ∃ c, a.Step p c q := by
  rw [targets, List.mem_map]
  constructor
  · rintro ⟨t, ht, rfl⟩
    exact ⟨t.interval.min, t, ht, by simp [ha.min_le_max p t ht], rfl⟩
  · rintro ⟨c, t, ht, -, rfl⟩
    exact ⟨t, ht, rfl⟩

theorem mem_targets_iff (ha : a.Valid) : q ∈ a.targets p ↔ ∃ c, a.Step p c q :=
  ha.inRange.mem_targets_iff

theorem InRange.step_lt (ha : a.InRange) {c : Nat} (h : a.Step p c q) : q < a.size := by
  obtain ⟨t, ht, -, rfl⟩ := h
  exact ha.target_lt p t ht

theorem mem_edges_plain {targets : List Nat} {d : Unit × Nat} :
    d ∈ (Row.plain targets).edges ↔ d.2 ∈ targets := by
  simp [Row.plain, Prod.ext_iff]

theorem reaches_target {rows : Nat → List Nat} {starts : List Nat}
    (hp : Reaches (fun q => .plain (rows q)) starts p) (hq : q ∈ rows p) :
    Reaches (fun q => .plain (rows q)) starts q :=
  hp.edge (d := ((), q)) (mem_edges_plain.mpr hq)

theorem reaches_of_path (ha : a.Valid) {starts w : List Nat} (hw : a.Path p w q)
    (hp : Reaches (fun q => .plain (a.targets q)) starts p) :
    Reaches (fun q => .plain (a.targets q)) starts q := by
  induction hw with
  | nil => exact hp
  | cons hs _ ih => exact ih (reaches_target hp ((mem_targets_iff ha).mpr ⟨_, hs⟩))

theorem reaches_iff_reachable (ha : a.Valid) :
    Reaches (fun q => .plain (a.targets q)) [a.initial] q ↔ a.Reachable q := by
  constructor
  · intro h
    induction h with
    | start hx => exact ⟨[], by rw [List.mem_singleton.mp hx]; exact .nil _⟩
    | edge _ hd ih =>
      obtain ⟨w, hw⟩ := ih
      obtain ⟨c, hc⟩ := (mem_targets_iff ha).mp (mem_edges_plain.mp hd)
      exact ⟨w ++ [c], hw.snoc hc⟩
  · intro ⟨w, hw⟩
    exact reaches_of_path ha hw (.start (List.mem_singleton.mpr rfl))

theorem Valid.reachable_lt (ha : a.Valid) (h : a.Reachable q) : q < a.size := by
  obtain ⟨w, hw⟩ := h
  exact ha.path_lt hw ha.initial_lt

theorem Valid.bounded_targets (ha : a.Valid) :
    Bounded (fun q => .plain (a.targets q)) [a.initial] a.size :=
  bounded_of_lt fun _ h => ha.reachable_lt ((reaches_iff_reachable ha).mp h)

theorem Valid.mem_reachable (ha : a.Valid) : q ∈ a.reachable ↔ a.Reachable q := by
  have hcomplete : Complete _ _ (exploreAll compare a.size (fun q => .plain (a.targets q))
      [a.initial]) := exploreAll_complete ha.bounded_targets
  rw [reachable, Array.mem_toList_iff, hcomplete.mem_items, reaches_iff_reachable ha]

theorem Valid.nodup_reachable (ha : a.Valid) : a.reachable.Nodup :=
  (exploreAll_complete ha.bounded_targets).indexed.nodup

/-- States that are numbered breadth first are swept as they stand, whatever their intervals. -/
theorem reachable_eq_range (hinitial : a.initial = 0) (h : BreadthFirst a.targets a.size) :
    a.reachable = List.range a.size := by
  have hlt : ∀ q, Reaches (fun q => .plain (a.targets q)) [0] q → q < a.size := by
    intro q hq
    induction hq with
    | start hq => exact List.mem_singleton.mp hq ▸ h.pos
    | edge _ hd ih => exact h.target_lt ih (mem_edges_plain.mp hd)
  have hexplored : Explored (fun q => .plain (a.targets q)) 0 (exploreAll compare a.size _ [0]) :=
    exploreAll_explored (bounded_of_lt hlt)
  rw [reachable, hinitial]
  refine hexplored.items_eq_range ?_
  simpa [Row.plain, Function.comp_def] using h

/-! ## Backward -/

def Live (a : Automaton) (q : Nat) : Prop := ∃ w, w ∈ a.residual q

theorem mem_accepting : q ∈ a.accepting ↔ a.isAccepting q = true := by
  rw [accepting, List.mem_filter, List.mem_range]
  exact ⟨And.right, fun h => ⟨lt_of_isAccepting h, h⟩⟩

/-- Entering a source under its targets adds it there and nowhere else. -/
theorem mem_foldl_modify (source : Nat) (ts : List Nat) (sources : Array (List Nat)) :
    p ∈ (ts.foldl (fun sources t => sources.modify t (source :: ·)) sources).getD q [] ↔
      p ∈ sources.getD q [] ∨ p = source ∧ q ∈ ts ∧ q < sources.size := by
  induction ts generalizing sources with
  | nil => simp
  | cons t ts ih =>
    rw [List.foldl_cons, ih, Array.size_modify, List.mem_cons]
    simp only [Array.getD_eq_getD_getElem?, Array.getElem?_modify]
    by_cases htq : t = q
    · subst htq
      by_cases hlt : t < sources.size
      · simp [hlt]; tauto
      · simp [hlt]
    · simp [htq, Ne.symm htq]

theorem size_foldl_modify (source : Nat) (ts : List Nat) (sources : Array (List Nat)) :
    (ts.foldl (fun sources t => sources.modify t (source :: ·)) sources).size = sources.size := by
  induction ts generalizing sources with
  | nil => rfl
  | cons t ts ih => rw [List.foldl_cons, ih, Array.size_modify]

/-- Reversing rows: entry `q` of the result lists the numbers whose rows have `q`. -/
theorem mem_reversed (rows : Nat → List Nat) (numbers : List Nat) (n : Nat) :
    let reversed := numbers.foldr
      (fun p sources => (rows p).foldl (fun sources t => sources.modify t (p :: ·)) sources)
      (Array.replicate n [])
    reversed.size = n ∧
      ∀ p q, p ∈ reversed.getD q [] ↔ p ∈ numbers ∧ q ∈ rows p ∧ q < n := by
  induction numbers with
  | nil =>
    refine ⟨Array.size_replicate, fun p q => ?_⟩
    simp only [List.foldr_nil, Array.getD_eq_getD_getElem?, Array.getElem?_replicate]
    split <;> simp
  | cons r numbers ih =>
    obtain ⟨hsize, hmem⟩ := ih
    dsimp only at hsize hmem ⊢
    rw [List.foldr_cons]
    refine ⟨by rw [size_foldl_modify]; exact hsize, fun p q => ?_⟩
    rw [mem_foldl_modify, hmem, hsize, List.mem_cons]
    constructor
    · rintro (⟨hp, hq⟩ | ⟨rfl, hq⟩)
      · exact ⟨.inr hp, hq⟩
      · exact ⟨.inl rfl, hq⟩
    · rintro ⟨rfl | hp, hq⟩
      · exact .inr ⟨rfl, hq⟩
      · exact .inl ⟨hp, hq⟩

theorem InRange.mem_predecessors (ha : a.InRange) :
    p ∈ a.predecessors.getD q [] ↔ ∃ c, a.Step p c q := by
  rw [predecessors, (mem_reversed a.targets (List.range a.size) a.size).2, List.mem_range,
    ha.mem_targets_iff]
  constructor
  · rintro ⟨-, hs, -⟩
    exact hs
  · intro ⟨c, hs⟩
    exact ⟨hs.source_lt, ⟨c, hs⟩, ha.step_lt hs⟩

theorem InRange.reaches_iff_live (ha : a.InRange) :
    Reaches (fun q => .plain (a.predecessors.getD q [])) a.accepting q ↔ a.Live q := by
  constructor
  · intro h
    induction h with
    | start hq => exact ⟨[], nil_mem_residual.mpr (mem_accepting.mp hq)⟩
    | edge _ hd ih =>
      obtain ⟨w, hw⟩ := ih
      obtain ⟨c, hc⟩ := ha.mem_predecessors.mp (mem_edges_plain.mp hd)
      exact ⟨c :: w, cons_mem_residual.mpr ⟨_, hc, hw⟩⟩
  · intro ⟨w, hw⟩
    induction w generalizing q with
    | nil => exact .start (mem_accepting.mpr (nil_mem_residual.mp hw))
    | cons c w ih =>
      obtain ⟨r, hs, hw⟩ := cons_mem_residual.mp hw
      exact reaches_target (ih hw) (ha.mem_predecessors.mpr ⟨c, hs⟩)

theorem Live.lt (h : a.Live q) : q < a.size := by
  obtain ⟨w, hw⟩ := h
  cases w with
  | nil => exact lt_of_isAccepting (nil_mem_residual.mp hw)
  | cons c w =>
    obtain ⟨r, hs, -⟩ := cons_mem_residual.mp hw
    exact hs.source_lt

theorem InRange.live_iff (ha : a.InRange) : a.live.getD q false = true ↔ a.Live q := by
  have hbound : Bounded (fun q => .plain (a.predecessors.getD q [])) a.accepting a.size :=
    bounded_of_lt fun q h => (ha.reaches_iff_live.mp h).lt
  have hcomplete : Complete _ _ (exploreAll compare a.size
      (fun q => .plain (a.predecessors.getD q [])) a.accepting) := exploreAll_complete hbound
  have hcontains := hcomplete.indexed.contains_iff (x := q)
  rw [hcomplete.mem_items, ha.reaches_iff_live] at hcontains
  rw [live, Array.getD_eq_getD_getElem?, Array.getElem?_map, Array.getElem?_range]
  split
  · exact hcontains
  · rename_i hq
    exact ⟨fun h => absurd h Bool.false_ne_true, fun h => absurd h.lt hq⟩

theorem Valid.live_iff (ha : a.Valid) : a.live.getD q false = true ↔ a.Live q := ha.inRange.live_iff

end IntervalAutomata.Automaton
