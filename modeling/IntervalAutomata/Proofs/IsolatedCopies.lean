import IntervalAutomata.Proofs.InPlace
import Mathlib.Data.Set.Function

/-! # Copies stand alone

A copy has one node for every node that the ends of the fragment lead to, and the same wires between
them. No wire leaves it, so what it spells is decided by its own nodes. Whatever is wired later from
other nodes, those of the fragment among them, does not change it. -/

namespace IntervalAutomata

/-- The node with its wires led to other nodes. -/
def Node.rename (φ : Nat → Nat) (n : Node) : Node :=
  ⟨n.edges.map fun e => ⟨e.interval, φ e.target⟩, n.successors.map φ⟩

namespace Graph

variable {g g' : Graph} {f : Fragment} {n : Nat} {area : Set Nat}

/-! ## Later wiring -/

/-- A change to a graph, as a builder makes it. -/
inductive Wiring where
  | node
  | step (source target : Nat)
  | edge (source : Nat) (interval : Interval) (target : Nat)

def wire (g : Graph) : Wiring → Graph
  | .node => g.addNode
  | .step source target => g.connect source target
  | .edge source interval target => g.addEdge source interval target

def wireAll (g : Graph) (wirings : List Wiring) : Graph := wirings.foldl wire g

/-- No wire starts in the area. -/
def Wiring.Spares (area : Set Nat) : Wiring → Prop
  | .node => True
  | .step source _ => source ∉ area
  | .edge source _ _ => source ∉ area

theorem rewired_wire {w : Wiring} (hw : w.Spares area) : Rewired areaᶜ g (g.wire w) := by
  cases w with
  | node => exact ⟨by simp [wire], fun n _ _ => node_addNode⟩
  | step source target =>
    refine ⟨Nat.le_of_eq size_connect.symm, fun n _ hn => ?_⟩
    have hne : source ≠ n := fun h => hn (h ▸ hw)
    simp [wire, node, connect, Array.getD_eq_getD_getElem?, Array.getElem?_modify, hne]
  | edge source interval target =>
    refine ⟨Nat.le_of_eq size_addEdge.symm, fun n _ hn => ?_⟩
    have hne : source ≠ n := fun h => hn (h ▸ hw)
    simp [wire, node, addEdge, Array.getD_eq_getD_getElem?, Array.getElem?_modify, hne]

theorem rewired_wireAll {wirings : List Wiring} (h : ∀ w ∈ wirings, w.Spares area) :
    Rewired areaᶜ g (g.wireAll wirings) := by
  induction wirings generalizing g with
  | nil => exact .refl _ _
  | cons w wirings ih =>
    obtain ⟨hw, hwirings⟩ := List.forall_mem_cons.mp h
    have hboth := (rewired_wire (g := g) hw).trans (ih hwirings)
    rwa [Set.union_self] at hboth

/-! ## Copies -/

/-- One to one between two sets of nodes, and so are their wires. -/
structure Isomorphic (g g' : Graph) (region copy : Set Nat) (φ : Nat → Nat) : Prop where
  bijOn : Set.BijOn φ region copy
  node_eq : ∀ n ∈ region, g'.node (φ n) = (g.node n).rename φ

theorem isomorphic_appendCopy {order : List Nat} (horder : order.Nodup) :
    Isomorphic g (g.appendCopy order) {n | n ∈ order} (Set.Ico g.size (g.appendCopy order).size)
      fun n => g.size + order.idxOf n where
  bijOn := by
    refine ⟨fun n hn => ?_, fun n hn m hm heq => ?_, fun n hn => ?_⟩
    · have hlt := List.idxOf_lt_length_of_mem hn
      rw [Set.mem_Ico, size_appendCopy]
      exact ⟨Nat.le_add_right _ _, Nat.add_lt_add_left hlt _⟩
    · exact (List.idxOf_inj hn).mp (Nat.add_left_cancel heq)
    · obtain ⟨m, hm, rfl⟩ := exists_copied horder hn
      exact ⟨m, hm, rfl⟩
  node_eq _ hn := node_appendCopy hn

/-- **A copy is faithful and stands alone.** It leaves all nodes as they are and appends one for each node
that the ends of the fragment lead to, wired alike among themselves. It spells what the fragment spells,
and goes on doing so whatever is wired later from other nodes. Numbers of 32 bits are enough for its
nodes while there are fewer nodes than such numbers, and the last of these numbers is not used. -/
theorem InRange.duplicate_exact (hg : g.InRange) (hf : g.Has f)
    (hids : (g.duplicate f).2.size < 2 ^ 32) :
    let copy := (g.duplicate f).1
    let g' := (g.duplicate f).2
    let appended := Set.Ico g.size g'.size
    g'.size = g.size + (g.extent f).nodes ∧ (∀ n < g.size, g'.node n = g.node n) ∧
    (∀ n ∈ appended, ∀ m ∈ g'.wires n, m ∈ appended) ∧
    (∃ φ, Isomorphic g g' (g.nodesOf f) appended φ ∧ φ f.entry = copy.entry ∧ φ f.exit = copy.exit ∧
      ∀ n ∈ g.nodesOf f, φ n < 2 ^ 32 - 1) ∧
    g'.language copy = g.language f ∧
    ∀ wirings : List Wiring, (∀ w ∈ wirings, w.Spares appended) →
      (∀ n ∈ appended, (g'.wireAll wirings).node n = g'.node n) ∧
        (g'.wireAll wirings).language copy = g.language f := by
  have hfragment := hg.realizes_nodesOf hf
  obtain ⟨hnodup, hmem⟩ := hfragment.collect_spec
  have hnodes : {n | n ∈ g.collect f} = g.nodesOf f := Set.ext hmem
  have hiso := isomorphic_appendCopy (g := g) hnodup
  rw [hnodes] at hiso
  have hbuilt := hfragment.appendCopy hfragment.collect
  have hcopy := hbuilt.realizes
  rw [Set.empty_union] at hcopy
  refine ⟨size_appendCopy, fun n hn => node_appendCopy_of_lt hn, hcopy.closed,
    ⟨_, hiso, rfl, rfl, fun n hn => ?_⟩, hbuilt.language_eq, fun wirings hwirings => ?_⟩
  · have hlt : _ < (g.appendCopy (g.collect f)).size := (hiso.bijOn.mapsTo hn).2
    exact Nat.lt_of_lt_of_le hlt (Nat.le_sub_one_of_lt hids)
  · have hrewired := rewired_wireAll (g := g.appendCopy (g.collect f)) hwirings
    refine ⟨fun n hn => hrewired.node_eq n hn.2 (not_not_intro hn), ?_⟩
    exact (hcopy.rewired hrewired disjoint_compl_right).spells_eq

/-- The two loops through node 1 are copied. Then node 1 leads on to a new node, that node into the copy,
and one of the loops gets a second edge. -/
theorem duplicate_loopsApart : loopsApart.InRange ∧ loopsApart.Has ⟨1, 1⟩ ∧
    (loopsApart.duplicate ⟨1, 1⟩).2.size = 8 ∧ (loopsApart.duplicate ⟨1, 1⟩).1 = ⟨5, 5⟩ ∧
    (loopsApart.duplicate ⟨1, 1⟩).2.language ⟨5, 5⟩ = loopsApart.language ⟨1, 1⟩ ∧
    ((loopsApart.duplicate ⟨1, 1⟩).2.wireAll
        [.node, .step 1 8, .edge 0 ⟨97, 99⟩ 1, .step 8 5]).language ⟨5, 5⟩ =
      loopsApart.language ⟨1, 1⟩ := by
  have hrange : loopsApart.InRange := by decide
  have hf : loopsApart.Has ⟨1, 1⟩ := by decide
  have hsize : (loopsApart.duplicate ⟨1, 1⟩).2.size = 8 := by decide +kernel
  have hcopy : (loopsApart.duplicate ⟨1, 1⟩).1 = ⟨5, 5⟩ := by decide +kernel
  obtain ⟨-, -, -, -, hlanguage, hlater⟩ := hrange.duplicate_exact hf (by rw [hsize]; decide)
  rw [hcopy] at hlanguage hlater
  refine ⟨hrange, hf, hsize, hcopy, hlanguage, (hlater _ ?_).2⟩
  have hold : loopsApart.size = 5 := rfl
  rw [hsize, hold]
  simp [Wiring.Spares]

end Graph

end IntervalAutomata
