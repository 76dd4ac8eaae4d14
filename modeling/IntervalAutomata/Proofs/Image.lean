import IntervalAutomata.Proofs.Flatten
import IntervalAutomata.Proofs.Product
import IntervalAutomata.Transducer.Image

/-! # Images under transducers

The pairs of states that can be reached together are as many as there are pairs, so the exploration
behind an image finds all of them, and every wire of the build graph leads to the node of a pair or to
the exit. What an edge of that graph consumes is the common part of two intervals or an interval that the
transducer emits. So the graph can be flattened like any other, and the image is well-formed. -/

namespace IntervalAutomata.Transducer

open Automaton

/-- Numbers that name states, and proper intervals on both sides. -/
structure Valid (t : Transducer) : Prop where
  initial_lt : t.initial < t.size
  target_lt : ∀ p, ∀ e ∈ t.transitions p, e.target < t.size
  proper : ∀ p, ∀ e ∈ t.transitions p, e.interval.Proper
  emits : ∀ p, ∀ e ∈ t.transitions p, ∀ i, e.output = .interval i → i.Proper

variable {t : Transducer} {a : Automaton} {x y : Nat × Nat} {label : Option Interval}

/-! ## Pairs of states -/

theorem mem_imageRow : (label, y) ∈ (imageRow t a x).edges ↔
    ∃ e ∈ t.transitions x.1, ∃ s ∈ a.transitions x.2, ∃ common,
      e.interval.meet? s.interval = some common ∧ emitted common e.output = label ∧
        (e.target, s.target) = y := by
  simp only [imageRow, List.mem_flatMap, List.mem_filterMap, Option.map_eq_some_iff, Prod.mk.injEq]

theorem Valid.proper_label (ht : t.Valid) {i : Interval} (h : (some i, y) ∈ (imageRow t a x).edges) :
    i.Proper := by
  obtain ⟨e, he, s, -, common, hmeet, hlabel, -⟩ := mem_imageRow.mp h
  cases houtput : e.output with
  | identity =>
    rw [houtput] at hlabel
    obtain rfl : common = i := Option.some.inj hlabel
    exact (ht.proper _ e he).meet? hmeet
  | epsilon =>
    rw [houtput] at hlabel
    cases hlabel
  | interval j =>
    rw [houtput] at hlabel
    obtain rfl : j = i := Option.some.inj hlabel
    exact ht.emits _ e he _ houtput

theorem reaches_imageRow_lt (ht : t.Valid) (ha : a.Valid)
    (hx : Reaches (imageRow t a) [(t.initial, a.initial)] x) : x.1 < t.size ∧ x.2 < a.size := by
  induction hx with
  | start hx =>
    rw [List.mem_singleton.mp hx]
    exact ⟨ht.initial_lt, ha.initial_lt⟩
  | @edge x d _ hd _ =>
    obtain ⟨e, he, s, hs, -, -, -, heq⟩ := mem_imageRow.mp hd
    rw [← heq]
    exact ⟨ht.target_lt _ e he, ha.target_lt _ s hs⟩

theorem bounded_imageRow (ht : t.Valid) (ha : a.Valid) :
    Bounded (imageRow t a) [(t.initial, a.initial)] (t.size * a.size) :=
  bounded_of_pairs fun _ hx => reaches_imageRow_lt ht ha hx

/-! ## The build graph -/

/-- The exit and a node for each row. -/
def imageGraph (rows : Array (Row Nat (Option Interval))) : Graph := ⟨#[({} : Node)] ++ rows.map imageNode⟩

variable {rows : Array (Row Nat (Option Interval))} {n : Nat}

theorem size_imageGraph : (imageGraph rows).size = rows.size + 1 := by
  simp [imageGraph, Graph.size, Nat.add_comm]

theorem node_imageGraph_zero : (imageGraph rows).node 0 = {} := by
  simp [Graph.node, imageGraph, Array.getD_eq_getD_getElem?]

theorem node_imageGraph_succ (n : Nat) (row : Row Nat (Option Interval)) (h : rows[n]? = some row) :
    (imageGraph rows).node (n + 1) = imageNode row := by
  rw [Graph.node, imageGraph, Array.getD_eq_getD_getElem?, Array.getElem?_append_right (by simp)]
  simp [h]

/-- A node that is wired stands for a row. -/
theorem node_imageGraph_cases (rows : Array (Row Nat (Option Interval))) (n : Nat) :
    (imageGraph rows).node n = {} ∨
      ∃ row ∈ rows, (imageGraph rows).node n = imageNode row := by
  cases n with
  | zero => exact .inl node_imageGraph_zero
  | succ n =>
    cases h : rows[n]? with
    | none =>
      refine .inl (Graph.node_of_size_le ?_)
      rw [size_imageGraph]
      exact Nat.succ_le_succ (Array.getElem?_eq_none_iff.mp h)
    | some row =>
      exact .inr ⟨row, Array.mem_iff_getElem?.mpr ⟨n, h⟩, node_imageGraph_succ n row h⟩

theorem mem_edges_imageNode {row : Row Nat (Option Interval)} {e : Transition} :
    e ∈ (imageNode row).edges ↔ ∃ m, (some e.interval, m) ∈ row.edges ∧ e.target = m + 1 := by
  simp only [imageNode, List.mem_filterMap, Option.map_eq_some_iff]
  constructor
  · intro ⟨⟨label, m⟩, hedge, i, hlabel, he⟩
    obtain rfl : label = some i := hlabel
    obtain rfl := he
    exact ⟨m, hedge, rfl⟩
  · obtain ⟨i, n⟩ := e
    rintro ⟨m, hedge, rfl⟩
    exact ⟨_, hedge, i, rfl, rfl⟩

theorem mem_successors_imageNode {row : Row Nat (Option Interval)} {m : Nat} :
    m ∈ (imageNode row).successors ↔
      row.accept = true ∧ m = 0 ∨ ∃ k, (none, k) ∈ row.edges ∧ m = k + 1 := by
  rw [imageNode, List.mem_append, List.mem_filterMap]
  refine or_congr (by split <;> simp [*]) ?_
  constructor
  · intro ⟨⟨label, k⟩, hedge, hk⟩
    cases label with
    | none => exact ⟨k, hedge, (Option.some.inj hk).symm⟩
    | some i => cases hk
  · rintro ⟨k, hedge, rfl⟩
    exact ⟨_, hedge, rfl⟩

/-- **The build graph of an image is sealed.** -/
theorem sealed_imageGraph (ht : t.Valid)
    {e : Exploration (Nat × Nat) (Option Interval) pairOrder} {start : Nat × Nat}
    (h : Exploration.Complete (imageRow t a) [start] e) :
    (imageGraph e.rows).Sealed Interval.Proper {n | n < (imageGraph e.rows).size} := by
  have hrow : ∀ row ∈ e.rows, ∀ d ∈ row.edges, d.2 < e.rows.size ∧ ∀ i, d.1 = some i → i.Proper := by
    intro row hrow d hd
    obtain ⟨n, hn⟩ := Array.mem_iff_getElem?.mp hrow
    obtain ⟨x, hx⟩ : ∃ x, e.items[n]? = some x :=
      ⟨_, Array.getElem?_eq_getElem (h.rows_size ▸ (Array.getElem?_eq_some_iff.mp hn).1)⟩
    obtain rfl := Option.some.inj (hn.symm.trans (h.row n x hx))
    obtain ⟨⟨label, y⟩, hedge, rfl⟩ := List.mem_map.mp hd
    refine ⟨h.rows_size.symm ▸ h.indexed.numberOf_lt ?_, ?_⟩
    · exact h.mem_of_edge (Array.mem_iff_getElem?.mpr ⟨n, hx⟩) hedge
    · intro i hlabel
      obtain rfl : label = some i := hlabel
      exact ht.proper_label hedge
  refine ⟨fun _ hn => hn, fun n hn m hm => ?_, fun n hn d hd => ?_⟩
  · show m < (imageGraph e.rows).size
    rw [size_imageGraph]
    obtain hbare | ⟨row, hmem, hnode⟩ := node_imageGraph_cases e.rows n
    · rw [Graph.wires, hbare] at hm
      cases hm
    · rw [Graph.mem_wires, hnode] at hm
      obtain ⟨d, hd, rfl⟩ | hm := hm
      · obtain ⟨k, hedge, heq⟩ := mem_edges_imageNode.mp hd
        exact heq ▸ Nat.succ_lt_succ (hrow row hmem _ hedge).1
      · obtain ⟨-, rfl⟩ | ⟨k, hedge, rfl⟩ := mem_successors_imageNode.mp hm
        · exact Nat.succ_pos _
        · exact Nat.succ_lt_succ (hrow row hmem _ hedge).1
  · obtain hbare | ⟨row, hmem, hnode⟩ := node_imageGraph_cases e.rows n
    · rw [hbare] at hd
      cases hd
    · rw [hnode] at hd
      obtain ⟨k, hedge, -⟩ := mem_edges_imageNode.mp hd
      exact (hrow row hmem _ hedge).2 _ rfl

theorem realizes_imageGraph (ht : t.Valid)
    {e : Exploration (Nat × Nat) (Option Interval) pairOrder} {start : Nat × Nat}
    (h : Exploration.Explored (imageRow t a) start e) :
    (imageGraph e.rows).Realizes Interval.Proper {n | n < (imageGraph e.rows).size} ⟨1, 0⟩
      ((imageGraph e.rows).spells 1 0) :=
  { sealed_imageGraph ht h.toComplete with
    entry_mem := by
      have hstart : 0 < e.rows.size := h.rows_size ▸ (Array.getElem?_eq_some_iff.mp h.head).1
      exact show 1 < _ from size_imageGraph ▸ Nat.succ_lt_succ hstart
    exit_mem := show 0 < _ from size_imageGraph ▸ Nat.succ_pos _
    spells_eq := rfl }

/-- An image is what comes of the build graph of a whole exploration. -/
theorem Valid.image_eq (ht : t.Valid) (ha : a.Valid) :
    ∃ e : Exploration (Nat × Nat) (Option Interval) pairOrder,
      Exploration.Explored (imageRow t a) (t.initial, a.initial) e ∧
        (t.image a).value = ((imageGraph e.rows).toAutomaton ⟨1, 0⟩).trim :=
  ⟨_, exploreAll_explored (bounded_imageRow ht ha), rfl⟩

/-- **An image is a trimmed automaton whose marks are truthful.** -/
theorem Valid.image_eq_trim (ht : t.Valid) (ha : a.Valid) :
    ∃ b : Automaton, b.WellFormed ∧ (t.image a).value = b.trim := by
  obtain ⟨e, hexplored, hvalue⟩ := ht.image_eq ha
  exact ⟨_, (realizes_imageGraph ht hexplored).toAutomaton.1, hvalue⟩

end IntervalAutomata.Transducer
