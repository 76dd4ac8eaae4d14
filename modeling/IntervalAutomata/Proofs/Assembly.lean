import IntervalAutomata.Proofs.Coalesce
import IntervalAutomata.Proofs.Sweep

/-! # Automata from explorations

The states of an assembled automaton are the items of the exploration: a state moves to another one on
a symbol exactly when the row of its item leads there. So its residuals are given by any family of
languages that unfolds along the rows. Joining edges needs rows whose intervals keep apart; it then
gives a separated automaton with the widest intervals and breadth-first numbers. -/

namespace IntervalAutomata

/-- Some edge of the row covers `c` and leads to `y`. -/
def Row.Leads {α : Type} (row : Row α Interval) (c : Nat) (y : α) : Prop :=
  ∃ d ∈ row.edges, d.1.contains c = true ∧ d.2 = y

/-- The intervals of a row keep apart, in ascending order. -/
def Row.Apart {α : Type} (row : Row α Interval) : Prop :=
  row.edges.Pairwise fun d d' => d.1.max < d'.1.min

/-- The intervals of a row ascend, where one may stand on several edges. -/
def Row.Climbs {α : Type} (row : Row α Interval) : Prop :=
  row.edges.Pairwise fun d d' => Interval.order d.1 d'.1 = .lt ∨ d.1 = d'.1

def Row.Proper {α : Type} (row : Row α Interval) : Prop := ∀ d ∈ row.edges, d.1.Proper

theorem Row.Proper.leads {α : Type} {row : Row α Interval} (h : row.Proper) {d : Interval × α}
    (hd : d ∈ row.edges) : row.Leads d.1.min d.2 :=
  ⟨d, hd, (h d hd).contains_min, rfl⟩

theorem Reaches.leads {α : Type} {look : α → Row α Interval} {starts : List α} {x y : α} {c : Nat}
    (hx : Reaches look starts x) (h : (look x).Leads c y) : Reaches look starts y := by
  obtain ⟨d, hd, -, rfl⟩ := h
  exact hx.edge hd

/-- Rearranged transitions have intervals of one kind and make the same moves. -/
structure Arranges (labels : Interval → Prop) (arrange : List Transition → List Transition)
    (l : List Transition) : Prop where
  labels_interval : ∀ t ∈ arrange l, labels t.interval
  moves : ∀ c q, Moves (arrange l) c q ↔ Moves l c q

/-- Where intervals ascend already, sorting moves entries with smaller targets to the front alone, so
new numbers stay in order. -/
theorem inOrder_ascending {m : Nat} {l : List Transition}
    (hl : l.Pairwise fun s t => Interval.order s.interval t.interval = .lt ∨ s.interval = t.interval)
    (h : InOrder m (l.map (·.target))) :
    InOrder m ((ascending Transition.order l).map (·.target)) := by
  rw [inOrder_iff] at h ⊢
  intro before t after heq u hu hmu
  obtain ⟨front, rest, hsplit, rfl, hrest⟩ := List.map_eq_append_iff.mp heq
  obtain ⟨t, back, rfl, rfl, -⟩ := List.map_eq_cons_iff.mp hrest
  have hascends : Ascends Transition.order (front ++ t :: back) := hsplit ▸ ascends_ascending l
  have hmem : ∀ s, s ∈ l ↔ s ∈ front ∨ s ∈ t :: back := fun s => by
    rw [← List.mem_append, ← hsplit, mem_ascending]
  obtain ⟨left, right, rfl⟩ := List.append_of_mem ((hmem t).mpr (.inr List.mem_cons_self))
  obtain ⟨s, hs, rfl⟩ := List.mem_map.mp
    (h (left.map (·.target)) t.target (right.map (·.target)) (by simp) u hu hmu)
  -- `s` stood before `t` and has a smaller target, so it still stands before `t`
  have hst : Transition.order s t = .lt := by
    rcases (List.pairwise_append.mp hl).2.2 s hs t List.mem_cons_self with hlt | hsame
    · exact Transition.order_lt_iff.mpr (.inl hlt)
    · exact Transition.order_lt_iff.mpr (.inr ⟨hsame, hu⟩)
  refine List.mem_map_of_mem ?_
  refine ((hmem s).mp (List.mem_append_left _ hs)).resolve_right fun hback => ?_
  rcases List.mem_cons.mp hback with rfl | hback
  · exact Nat.lt_irrefl _ hu
  · have hts := (List.pairwise_cons.mp (List.pairwise_append.mp hascends).2.1).1 s hback
    exact ne_of_lt_cmp (Std.TransCmp.lt_trans hst hts) rfl

/-! ## Finished states -/

namespace Automaton

variable {states : List State} {initial : Nat}

@[simp] theorem size_ofStates : (ofStates states initial).size = states.length := by
  simp [size, ofStates]

@[simp] theorem initial_ofStates : (ofStates states initial).initial = initial := rfl

theorem state_ofStates (q : Nat) : (ofStates states initial).state q = states.getD q {} := by
  simp [state, ofStates, Array.getD_eq_getD_getElem?, List.getD_eq_getElem?_getD]

theorem deterministic_ofStates_iff_separate : (ofStates states initial).deterministic = true ↔
    ∀ q, separate ((ofStates states initial).transitions q) = true := by
  have hall : (ofStates states initial).deterministic = true ↔
      ∀ s ∈ states, separate s.transitions = true := List.all_eq_true
  rw [hall]
  constructor
  · intro hsep q
    rw [transitions, state_ofStates, List.getD_eq_getElem?_getD]
    cases hq : states[q]? with
    | none => rfl
    | some s => exact hsep s (List.mem_of_getElem? hq)
  · intro hsep s hs
    obtain ⟨q, hq⟩ := List.getElem?_of_mem hs
    have := hsep q
    rwa [transitions, state_ofStates, List.getD_eq_getElem?_getD, hq] at this

/-- Finished states with the mark have no overlaps, unless some interval has its ends inverted. -/
theorem apart_ofStates (hends : ∀ q, ∀ t ∈ (ofStates states initial).transitions q,
    t.interval.min ≤ t.interval.max) (h : (ofStates states initial).deterministic = true) (q : Nat) :
    Apart ((ofStates states initial).transitions q) :=
  (separate_iff (hends q)).mp (deterministic_ofStates_iff_separate.mp h q)

/-- The determinism mark of finished states is truthful. -/
theorem deterministic_ofStates (h : (ofStates states initial).Valid) :
    (ofStates states initial).deterministic = true ↔ (ofStates states initial).Separated := by
  have hends : ∀ q, ∀ t ∈ (ofStates states initial).transitions q,
      t.interval.min ≤ t.interval.max := fun q t ht => (h.proper q t ht).min_le_max
  constructor
  · exact fun hd => separated_of_apart (apart_ofStates hends hd)
  · exact fun hs => deterministic_ofStates_iff_separate.mpr fun q =>
      (separate_iff (hends q)).mpr (h.apart hs q)

theorem wellFormed_ofStates (h : (ofStates states initial).Valid) :
    (ofStates states initial).WellFormed :=
  ⟨h, deterministic_ofStates h, fun _ hknown => nomatch hknown⟩

end Automaton

/-- A state with the transitions `arrange` makes of the row. -/
def Row.toState (arrange : List Transition → List Transition) (row : Row Nat Interval) : State :=
  { accept := row.accept, transitions := ascending Transition.order (arrange row.transitions) }

namespace Exploration

set_option linter.unusedSectionVars false

variable {α : Type} {cmp : α → α → Ordering} [Std.TransCmp cmp] [Std.LawfulEqCmp cmp]
variable {e : Exploration α Interval cmp} {look : α → Row α Interval} {x₀ x y : α}
variable {arrange : List Transition → List Transition} {labels : Interval → Prop} {i j c : Nat}

/-- The automaton over the rows of `e`, with each row's transitions arranged. -/
def assembled (arrange : List Transition → List Transition)
    (e : Exploration α Interval cmp) : Automaton :=
  .ofStates (e.rows.toList.map (Row.toState arrange)) 0

/-- The transitions that the row of `x` stands for. -/
def outgoing (e : Exploration α Interval cmp) (look : α → Row α Interval) (x : α) :
    List Transition :=
  (e.numbered (look x)).transitions

theorem Complete.size_assembled (h : Complete look [x₀] e) :
    (e.assembled arrange).size = e.items.size := by
  rw [assembled, Automaton.size_ofStates, List.length_map, Array.length_toList, h.rows_size]

theorem Complete.state_assembled (h : Complete look [x₀] e) (hx : e.items[i]? = some x) :
    (e.assembled arrange).state i = Row.toState arrange (e.numbered (look x)) := by
  rw [assembled, Automaton.state_ofStates, List.getD_eq_getElem?_getD, List.getElem?_map,
    Array.getElem?_toList, h.row i x hx]
  rfl

theorem Complete.isAccepting_assembled (h : Complete look [x₀] e) (hx : e.items[i]? = some x) :
    (e.assembled arrange).isAccepting i = (look x).accept := by
  rw [Automaton.isAccepting, h.state_assembled hx]
  rfl

theorem Complete.transitions_assembled (h : Complete look [x₀] e) (hx : e.items[i]? = some x) :
    (e.assembled arrange).transitions i =
      ascending Transition.order (arrange (e.outgoing look x)) := by
  rw [Automaton.transitions, h.state_assembled hx]
  rfl

/-- A state is out of range or stands for an item. -/
theorem Complete.transitions_cases (h : Complete look [x₀] e)
    (arrange : List Transition → List Transition) (i : Nat) :
    (e.assembled arrange).transitions i = [] ∨ ∃ x, e.items[i]? = some x := by
  by_cases hi : i < e.items.size
  · exact .inr ⟨_, Array.getElem?_eq_getElem hi⟩
  · left
    rw [Automaton.transitions, Automaton.state_of_size_le]
    rw [h.size_assembled]
    exact Nat.le_of_not_lt hi

theorem moves_outgoing {q : Nat} :
    Moves (e.outgoing look x) c q ↔ ∃ y, (look x).Leads c y ∧ e.numberOf y = q := by
  simp only [Moves, outgoing, numbered, Row.transitions, Row.Leads, List.map_map, List.mem_map,
    Function.comp_apply]
  constructor
  · rintro ⟨t, ⟨d, hd, rfl⟩, hc, rfl⟩
    exact ⟨d.2, ⟨d, hd, hc, rfl⟩, rfl⟩
  · rintro ⟨_, ⟨d, hd, hc, rfl⟩, rfl⟩
    exact ⟨_, ⟨d, hd, rfl⟩, hc, rfl⟩

/-- **The steps of an assembled automaton are those of the rows.** -/
theorem Complete.step_assembled (h : Complete look [x₀] e)
    (harrange : ∀ x ∈ e.items, Arranges labels arrange (e.outgoing look x)) :
    (e.assembled arrange).Step i c j ↔
      ∃ x y, e.items[i]? = some x ∧ e.items[j]? = some y ∧ (look x).Leads c y := by
  have hstep : ∀ {x}, e.items[i]? = some x → ((e.assembled arrange).Step i c j ↔
      ∃ y, (look x).Leads c y ∧ e.numberOf y = j) := by
    intro x hx
    rw [← moves_outgoing, ← (harrange x (Array.mem_iff_getElem?.mpr ⟨i, hx⟩)).moves,
      Automaton.Step, h.transitions_assembled hx]
    exact moves_congr fun t => mem_ascending
  constructor
  · intro hs
    rcases h.transitions_cases arrange i with hnil | ⟨x, hx⟩
    · obtain ⟨t, ht, -⟩ := hs
      rw [hnil] at ht
      cases ht
    · obtain ⟨y, hy, rfl⟩ := (hstep hx).mp hs
      refine ⟨x, y, hx, h.indexed.getElem?_numberOf ?_, hy⟩
      obtain ⟨d, hd, -, rfl⟩ := hy
      exact h.mem_of_edge (Array.mem_iff_getElem?.mpr ⟨i, hx⟩) hd
  · intro hex
    obtain ⟨x, y, hx, hy, hleads⟩ := hex
    exact (hstep hx).mpr ⟨y, hleads, h.indexed.numberOf_eq hy⟩

theorem Complete.labels_assembled (h : Complete look [x₀] e)
    (harrange : ∀ x ∈ e.items, Arranges labels arrange (e.outgoing look x)) (i : Nat) :
    ∀ t ∈ (e.assembled arrange).transitions i, labels t.interval := by
  intro t ht
  rcases h.transitions_cases arrange i with hnil | ⟨x, hx⟩
  · rw [hnil] at ht; cases ht
  · rw [h.transitions_assembled hx, mem_ascending] at ht
    exact (harrange x (Array.mem_iff_getElem?.mpr ⟨i, hx⟩)).labels_interval t ht

theorem Complete.valid_assembled (h : Complete look [x₀] e)
    (harrange : ∀ x ∈ e.items, Arranges Interval.Proper arrange (e.outgoing look x)) :
    (e.assembled arrange).Valid := by
  have hproper := h.labels_assembled harrange
  refine ⟨?_, fun i t ht => ?_, fun i => ?_, hproper⟩
  · obtain ⟨i, hi⟩ := Array.mem_iff_getElem?.mp
      ((h.mem_items x₀).mpr (.start (List.mem_singleton.mpr rfl)))
    rw [h.size_assembled]
    exact Nat.lt_of_le_of_lt (Nat.zero_le i) (Array.getElem?_eq_some_iff.mp hi).1
  · have hstep : (e.assembled arrange).Step i t.interval.min t.target :=
      ⟨t, ht, (hproper i t ht).contains_min, rfl⟩
    obtain ⟨_, y, _, hy, _⟩ := (h.step_assembled harrange).mp hstep
    rw [h.size_assembled]
    exact (Array.getElem?_eq_some_iff.mp hy).1
  · rcases h.transitions_cases arrange i with hnil | ⟨x, hx⟩
    · rw [hnil]; exact List.Pairwise.nil
    · rw [h.transitions_assembled hx]
      exact ascends_ascending _

/-- Languages that unfold along the rows are the residuals. -/
theorem Complete.residual_assembled (h : Complete look [x₀] e)
    (harrange : ∀ x ∈ e.items, Arranges labels arrange (e.outgoing look x)) (lang : α → Language Symbol)
    (hnil : ∀ x ∈ e.items, ([] ∈ lang x ↔ (look x).accept = true))
    (hcons : ∀ x ∈ e.items, ∀ (c : Nat) w,
      c :: w ∈ lang x ↔ ∃ y, (look x).Leads c y ∧ w ∈ lang y)
    (hx : e.items[i]? = some x) : (e.assembled arrange).residual i = lang x := by
  ext w
  induction w generalizing i x with
  | nil =>
    rw [Automaton.nil_mem_residual, h.isAccepting_assembled hx,
      hnil x (Array.mem_iff_getElem?.mpr ⟨i, hx⟩)]
  | cons c w ih =>
    have hmem : x ∈ e.items := Array.mem_iff_getElem?.mpr ⟨i, hx⟩
    rw [Automaton.cons_mem_residual, hcons x hmem]
    simp only [h.step_assembled harrange]
    constructor
    · intro ⟨j, ⟨x', y, hx', hy, hleads⟩, hw⟩
      rw [hx] at hx'
      cases hx'
      exact ⟨y, hleads, (ih hy).mp hw⟩
    · intro ⟨y, hleads, hw⟩
      have hy : y ∈ e.items := by
        obtain ⟨d, hd, -, rfl⟩ := hleads
        exact h.mem_of_edge hmem hd
      have hnum := h.indexed.getElem?_numberOf hy
      exact ⟨_, ⟨x, y, hx, hnum, hleads⟩, (ih hnum).mpr hw⟩

theorem Complete.rowTargets_eq_outgoing (h : Complete look [x₀] e) (hx : e.items[i]? = some x) :
    e.rowTargets i = (e.outgoing look x).map (·.target) := by
  rw [h.rowTargets_eq hx]
  simp [outgoing, numbered, Row.transitions, Function.comp_def]

/-! ## Every edge a transition -/

theorem labels_outgoing (h : ∀ d ∈ (look x).edges, labels d.1) :
    ∀ t ∈ e.outgoing look x, labels t.interval := by
  intro t ht
  simp only [outgoing, numbered, Row.transitions, List.map_map, List.mem_map] at ht
  obtain ⟨d, hd, rfl⟩ := ht
  exact h d hd

theorem arranges_id (h : ∀ d ∈ (look x).edges, labels d.1) :
    Arranges labels id (e.outgoing look x) :=
  ⟨labels_outgoing h, fun _ _ => Iff.rfl⟩

theorem climbs_outgoing (h : (look x).Climbs) : (e.outgoing look x).Pairwise fun s t =>
    Interval.order s.interval t.interval = .lt ∨ s.interval = t.interval := by
  simp only [outgoing, numbered, Row.transitions, List.map_map, List.pairwise_map]
  exact h

/-- Rows are explored in the order of the items and sorted again in the order of their numbers. -/
theorem Explored.breadthFirst_edges (h : Explored look x₀ e)
    (hclimbs : ∀ x ∈ e.items, (look x).Climbs) :
    BreadthFirst (e.assembled id).targets (e.assembled id).size := by
  have hsize : (e.assembled id).size = e.items.size := h.size_assembled
  rw [hsize]
  refine h.breadthFirst.transfer fun k hk m horder => ?_
  have hx := Array.getElem?_eq_getElem hk
  have hclimb := climbs_outgoing (e := e) (hclimbs _ (Array.mem_iff_getElem?.mpr ⟨k, hx⟩))
  rw [h.rowTargets_eq_outgoing hx] at horder ⊢
  rw [Automaton.targets, h.transitions_assembled hx, id]
  exact ⟨inOrder_ascending hclimb horder,
    grow_congr m fun t => by simp only [List.mem_map, mem_ascending]⟩

/-! ## Edges joined -/

theorem apart_outgoing (h : (look x).Apart) : IntervalAutomata.Apart (e.outgoing look x) := by
  simp only [outgoing, numbered, Row.transitions, IntervalAutomata.Apart, List.map_map,
    List.pairwise_map]
  exact h

theorem arranges_coalesce (h : (look x).Proper) (ha : (look x).Apart) :
    Arranges Interval.Proper coalesce (e.outgoing look x) :=
  ⟨proper_coalesce (labels_outgoing h),
    fun _ _ => moves_coalesce ((apart_outgoing ha).rising (labels_outgoing h))⟩

/-- What the joined automaton of rows that keep apart looks like. -/
theorem Complete.transitions_joined (h : Complete look [x₀] e) (hp : (look x).Proper)
    (ha : (look x).Apart) (hx : e.items[i]? = some x) :
    (e.assembled coalesce).transitions i = coalesce (e.outgoing look x) := by
  have hproper : ∀ t ∈ e.outgoing look x, t.interval.Proper := labels_outgoing hp
  rw [h.transitions_assembled hx]
  exact ((apart_coalesce (apart_outgoing ha) hproper).ascends (proper_coalesce hproper)).ascending_eq

theorem Complete.apart_joined (h : Complete look [x₀] e) (hp : ∀ x ∈ e.items, (look x).Proper)
    (ha : ∀ x ∈ e.items, (look x).Apart) (i : Nat) :
    IntervalAutomata.Apart ((e.assembled coalesce).transitions i) ∧
      Joined ((e.assembled coalesce).transitions i) := by
  rcases h.transitions_cases coalesce i with hnil | ⟨x, hx⟩
  · rw [hnil]
    exact ⟨List.Pairwise.nil, List.Pairwise.nil⟩
  · have hmem := Array.mem_iff_getElem?.mpr ⟨i, hx⟩
    have hproper : ∀ t ∈ e.outgoing look x, t.interval.Proper := labels_outgoing (hp x hmem)
    rw [h.transitions_joined (hp x hmem) (ha x hmem) hx]
    exact ⟨apart_coalesce (apart_outgoing (ha x hmem)) hproper,
      joined_coalesce (apart_outgoing (ha x hmem)) hproper⟩

theorem Explored.breadthFirst_joined (h : Explored look x₀ e)
    (hp : ∀ x ∈ e.items, (look x).Proper) (ha : ∀ x ∈ e.items, (look x).Apart) :
    BreadthFirst (e.assembled coalesce).targets (e.assembled coalesce).size := by
  have hsize : (e.assembled coalesce).size = e.items.size := h.size_assembled
  rw [hsize]
  refine h.breadthFirst.transfer fun k hk m horder => ?_
  have hx := Array.getElem?_eq_getElem hk
  have hmem := Array.mem_iff_getElem?.mpr ⟨k, hx⟩
  rw [h.rowTargets_eq_outgoing hx] at horder ⊢
  rw [Automaton.targets, h.transitions_joined (hp _ hmem) (ha _ hmem) hx]
  obtain ⟨hiff, hgrow⟩ := inOrder_coalesce m (e.outgoing look e.items[k])
  exact ⟨hiff.mpr horder, hgrow⟩

end Exploration

end IntervalAutomata
