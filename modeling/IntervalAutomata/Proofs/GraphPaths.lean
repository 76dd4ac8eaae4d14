import IntervalAutomata.Graph.Search
import IntervalAutomata.Proofs.Interval
import Mathlib.Computability.Language
import Mathlib.Order.CompletePartialOrder
import Mathlib.Order.ConditionallyCompleteLattice.Basic
import Mathlib.Order.Interval.Set.LinearOrder

/-! # Paths through a build graph

A fragment is given a region: nodes that no wire leaves, its entry and its exit among them. What the
paths from entry to exit spell is decided inside the region, so it stays the same while other nodes are
wired. When the exit gets one more successor, a path out of the region goes through the exit once and
for all, and what it spells is cut in two there. Everything the combinators do comes down to this cut
and, for a loop, to the least solution of one equation. -/

namespace IntervalAutomata.Graph

/-- A path from one node to another and what it spells. -/
inductive Path (g : Graph) : Nat → List Symbol → Nat → Prop
  | nil (n : Nat) : Path g n [] n
  | skip {n m w t} : m ∈ (g.node n).successors → Path g m w t → Path g n w t
  | read {n e c w t} : e ∈ (g.node n).edges → e.interval.contains c = true →
      Path g e.target w t → Path g n (c :: w) t

variable {g g' : Graph} {n m s t x c : Nat} {u v w : List Nat} {region : Set Nat}
variable {labels : Interval → Prop}

def spells (g : Graph) (n t : Nat) : Language Symbol := {w | g.Path n w t}

/-- No wire leaves the region. -/
def Closed (g : Graph) (region : Set Nat) : Prop := ∀ n ∈ region, ∀ m ∈ g.wires n, m ∈ region

/-- Existing nodes that no wire leaves, with intervals of one kind on their edges. -/
structure Sealed (g : Graph) (labels : Interval → Prop) (region : Set Nat) : Prop where
  lt : ∀ n ∈ region, n < g.size
  closed : g.Closed region
  labels_edge : ∀ n ∈ region, ∀ e ∈ (g.node n).edges, labels e.interval

/-- The fragment stands in the region and accepts the language. -/
structure Realizes (g : Graph) (labels : Interval → Prop) (region : Set Nat) (f : Fragment)
    (l : Language Symbol) : Prop extends Sealed g labels region where
  entry_mem : f.entry ∈ region
  exit_mem : f.exit ∈ region
  spells_eq : g.spells f.entry f.exit = l

/-- Nodes may have been added, but none outside the region has changed. -/
structure Rewired (region : Set Nat) (g g' : Graph) : Prop where
  size_le : g.size ≤ g'.size
  node_eq : ∀ n < g.size, n ∉ region → g'.node n = g.node n

/-- From nodes of the region and new ones a fragment has been built that accepts the language. -/
structure Builds (g : Graph) (labels : Interval → Prop) (region : Set Nat) (built : Fragment × Graph)
    (l : Language Symbol) : Prop extends Rewired region g built.2 where
  realizes : built.2.Realizes labels (region ∪ Set.Ico g.size built.2.size) built.1 l

/-! ## Wiring -/

theorem node_of_size_le (h : g.size ≤ n) : g.node n = {} := by
  simp [node, Array.getD_eq_getD_getElem?, Array.getElem?_eq_none h]

@[simp] theorem size_addNode : g.addNode.size = g.size + 1 := Array.size_push _

@[simp] theorem node_addNode : g.addNode.node n = g.node n := by
  rcases Nat.lt_trichotomy n g.size with h | rfl | h
  · simp [node, addNode, Array.getD_eq_getD_getElem?, Array.getElem?_push_lt h,
      Array.getElem?_eq_getElem h]
  · rw [node_of_size_le (Nat.le_refl _)]
    simp [node, addNode, size, Array.getD_eq_getD_getElem?]
  · rw [node_of_size_le (Nat.le_of_lt h), node_of_size_le]
    rw [size_addNode]
    exact h

@[simp] theorem size_connect : (g.connect s t).size = g.size := Array.size_modify

theorem node_connect (h : s < g.size) : (g.connect s t).node n =
    if n = s then ⟨(g.node n).edges, (g.node n).successors ++ [t]⟩ else g.node n := by
  simp only [node, connect, Array.getD_eq_getD_getElem?, Array.getElem?_modify]
  by_cases hns : n = s
  · subst hns
    rw [if_pos rfl, if_pos rfl, Array.getElem?_eq_getElem h]
    rfl
  · rw [if_neg (Ne.symm hns), if_neg hns]

@[simp] theorem size_addEdge {i : Interval} : (g.addEdge s i t).size = g.size := Array.size_modify

theorem node_addEdge {i : Interval} (h : s < g.size) : (g.addEdge s i t).node n =
    if n = s then ⟨(g.node n).edges ++ [⟨i, t⟩], (g.node n).successors⟩ else g.node n := by
  simp only [node, addEdge, Array.getD_eq_getD_getElem?, Array.getElem?_modify]
  by_cases hns : n = s
  · subst hns
    rw [if_pos rfl, if_pos rfl, Array.getElem?_eq_getElem h]
    rfl
  · rw [if_neg (Ne.symm hns), if_neg hns]

theorem mem_wires : m ∈ g.wires n ↔
    (∃ e ∈ (g.node n).edges, e.target = m) ∨ m ∈ (g.node n).successors := by
  rw [wires, List.mem_append, List.mem_map]

theorem wires_congr (h : g'.node n = g.node n) : g'.wires n = g.wires n := by
  rw [wires, wires, h]

/-! ## Paths -/

theorem mem_spells : w ∈ g.spells n t ↔ g.Path n w t := Iff.rfl

theorem Path.append (hu : g.Path n u m) (hv : g.Path m v t) : g.Path n (u ++ v) t := by
  induction hu with
  | nil => exact hv
  | skip hm _ ih => exact .skip hm (ih hv)
  | read he hc _ ih => exact .read he hc (ih hv)

theorem path_iff : g.Path n w t ↔ n = t ∧ w = [] ∨ (∃ m ∈ (g.node n).successors, g.Path m w t) ∨
    ∃ e ∈ (g.node n).edges, ∃ c v, w = c :: v ∧ e.interval.contains c = true ∧
      g.Path e.target v t := by
  constructor
  · intro h
    cases h with
    | nil => exact .inl ⟨rfl, rfl⟩
    | skip hm hp => exact .inr (.inl ⟨_, hm, hp⟩)
    | read he hc hp => exact .inr (.inr ⟨_, he, _, _, rfl, hc, hp⟩)
  · rintro (⟨rfl, rfl⟩ | ⟨m, hm, hp⟩ | ⟨e, he, c, v, rfl, hc, hp⟩)
    · exact .nil n
    · exact .skip hm hp
    · exact .read he hc hp

/-- A node without wires leads nowhere. -/
theorem spells_bare (h : g.node n = {}) : g.spells n n = 1 := by
  ext w
  rw [mem_spells, path_iff, h]
  simp [Language.mem_one]

theorem spells_bare_ne (h : g.node n = {}) (hne : n ≠ t) : g.spells n t = 0 := by
  ext w
  rw [mem_spells, path_iff, h]
  simp [hne, Language.notMem_zero]

theorem mem_sum {ls : List (Language Symbol)} : w ∈ ls.sum ↔ ∃ l ∈ ls, w ∈ l := by
  induction ls with
  | nil => simp [Language.notMem_zero]
  | cons l ls ih => rw [List.sum_cons, Language.mem_add, ih, List.exists_mem_cons_iff]

/-- A node that only leads on offers what its successors offer. -/
theorem spells_fork {targets : List Nat} (h : g.node n = ⟨[], targets⟩) (hne : n ≠ t) :
    g.spells n t = (targets.map fun m => g.spells m t).sum := by
  ext w
  rw [mem_spells, path_iff, h, mem_sum]
  simp [hne, mem_spells]

theorem spells_branch (h : g.node n = ⟨[], [m, s]⟩) (hne : n ≠ t) :
    g.spells n t = g.spells m t + g.spells s t := by
  rw [spells_fork h hne]
  simp

/-! ## Regions -/

theorem Closed.path_mem (hclosed : g.Closed region) (hn : n ∈ region) (h : g.Path n w t) :
    t ∈ region := by
  induction h with
  | nil => exact hn
  | skip hm _ ih => exact ih (hclosed _ hn _ (mem_wires.mpr (.inr hm)))
  | read he _ _ ih => exact ih (hclosed _ hn _ (mem_wires.mpr (.inl ⟨_, he, rfl⟩)))

theorem Closed.congr (hclosed : g.Closed region) (h : ∀ n ∈ region, g'.node n = g.node n) :
    g'.Closed region := by
  intro n hn
  rw [wires_congr (h n hn)]
  exact hclosed n hn

private theorem path_of_agreement (hclosed : g.Closed region)
    (h : ∀ n ∈ region, g'.node n = g.node n) (hn : n ∈ region) (hw : g.Path n w t) :
    g'.Path n w t := by
  induction hw with
  | nil => exact .nil _
  | skip hm _ ih =>
    exact .skip (h _ hn ▸ hm) (ih (hclosed _ hn _ (mem_wires.mpr (.inr hm))))
  | read he hc _ ih =>
    exact .read (h _ hn ▸ he) hc (ih (hclosed _ hn _ (mem_wires.mpr (.inl ⟨_, he, rfl⟩))))

/-- Paths from a closed region depend on its nodes alone. -/
theorem Closed.spells_congr (hclosed : g.Closed region) (h : ∀ n ∈ region, g'.node n = g.node n)
    (hn : n ∈ region) : g'.spells n t = g.spells n t := by
  ext w
  exact ⟨path_of_agreement (hclosed.congr h) (fun n hn => (h n hn).symm) hn,
    path_of_agreement hclosed h hn⟩

variable {f : Fragment} {l : Language Symbol}

theorem sealed_empty (g : Graph) : g.Sealed labels ∅ := ⟨nofun, nofun, nofun⟩

theorem Sealed.congr (hg : g.Sealed labels region) (hsize : g.size ≤ g'.size)
    (h : ∀ n ∈ region, g'.node n = g.node n) : g'.Sealed labels region where
  lt n hn := Nat.lt_of_lt_of_le (hg.lt n hn) hsize
  closed := hg.closed.congr h
  labels_edge n hn := by rw [h n hn]; exact hg.labels_edge n hn

theorem Sealed.union {area : Set Nat} (h : g.Sealed labels region) (h' : g.Sealed labels area) :
    g.Sealed labels (region ∪ area) where
  lt n hn := hn.elim (h.lt n) (h'.lt n)
  closed n hn m hm := hn.imp (fun hn => h.closed n hn m hm) fun hn => h'.closed n hn m hm
  labels_edge n hn := hn.elim (h.labels_edge n) (h'.labels_edge n)

theorem Sealed.rewired {area : Set Nat} (hg : g.Sealed labels region) (h : Rewired area g g')
    (hdisjoint : Disjoint region area) : g'.Sealed labels region :=
  hg.congr h.size_le fun n hn => h.node_eq n (hg.lt n hn) (Set.disjoint_left.mp hdisjoint hn)

/-- **A fragment is not affected by what happens outside its region.** -/
theorem Realizes.congr (hf : g.Realizes labels region f l) (hsize : g.size ≤ g'.size)
    (h : ∀ n ∈ region, g'.node n = g.node n) : g'.Realizes labels region f l where
  toSealed := hf.toSealed.congr hsize h
  entry_mem := hf.entry_mem
  exit_mem := hf.exit_mem
  spells_eq := (hf.closed.spells_congr h hf.entry_mem).trans hf.spells_eq

theorem Realizes.rewired {area : Set Nat} (hf : g.Realizes labels region f l) (h : Rewired area g g')
    (hdisjoint : Disjoint region area) : g'.Realizes labels region f l :=
  hf.congr h.size_le fun n hn =>
    h.node_eq n (hf.lt n hn) (Set.disjoint_left.mp hdisjoint hn)

/-- More nodes may be counted to a region. -/
theorem Realizes.union {area : Set Nat} (hf : g.Realizes labels region f l) (h : g.Sealed labels area) :
    g.Realizes labels (area ∪ region) f l :=
  ⟨h.union hf.toSealed, .inr hf.entry_mem, .inr hf.exit_mem, hf.spells_eq⟩

theorem Rewired.refl (region : Set Nat) (g : Graph) : Rewired region g g :=
  ⟨Nat.le_refl _, fun _ _ _ => rfl⟩

theorem Rewired.trans {area : Set Nat} {g'' : Graph} (h : Rewired region g g')
    (h' : Rewired area g' g'') : Rewired (region ∪ area) g g'' where
  size_le := Nat.le_trans h.size_le h'.size_le
  node_eq n hn hout := by
    rw [h'.node_eq n (Nat.lt_of_lt_of_le hn h.size_le) fun hmem => hout (.inr hmem),
      h.node_eq n hn fun hmem => hout (.inl hmem)]

/-- Only nodes that were there before can have changed. -/
theorem Rewired.mono {area : Set Nat} (h : Rewired area g g')
    (hsub : ∀ n ∈ area, n < g.size → n ∈ region) : Rewired region g g' where
  size_le := h.size_le
  node_eq n hn hout := h.node_eq n hn fun hmem => hout (hsub n hmem hn)

/-! ## Leaving a region -/

/-- The region is as it was, except that its exit now leads to `x` as well. -/
structure LeadsOn (g g' : Graph) (region : Set Nat) (exit x : Nat) : Prop where
  node_eq : ∀ n ∈ region, n ≠ exit → g'.node n = g.node n
  node_exit : g'.node exit = ⟨(g.node exit).edges, (g.node exit).successors ++ [x]⟩

section

variable {exit : Nat}

theorem LeadsOn.edges_eq (h : LeadsOn g g' region exit x) (hn : n ∈ region) :
    (g'.node n).edges = (g.node n).edges := by
  by_cases he : n = exit
  · rw [he, h.node_exit]
  · rw [h.node_eq n hn he]

theorem LeadsOn.mem_successors (h : LeadsOn g g' region exit x) (hn : n ∈ region) :
    m ∈ (g'.node n).successors ↔ m ∈ (g.node n).successors ∨ n = exit ∧ m = x := by
  by_cases he : n = exit
  · rw [he, h.node_exit]
    simp
  · rw [h.node_eq n hn he]
    simp [he]

theorem LeadsOn.mem_wires (h : LeadsOn g g' region exit x) (hn : n ∈ region) :
    m ∈ g'.wires n ↔ m ∈ g.wires n ∨ n = exit ∧ m = x := by
  rw [Graph.mem_wires, Graph.mem_wires, h.edges_eq hn, h.mem_successors hn, or_assoc]

theorem LeadsOn.path (h : LeadsOn g g' region exit x) (hclosed : g.Closed region) (hn : n ∈ region)
    (hw : g.Path n w t) : g'.Path n w t := by
  induction hw with
  | nil => exact .nil _
  | skip hm _ ih =>
    exact .skip ((h.mem_successors hn).mpr (.inl hm))
      (ih (hclosed _ hn _ (Graph.mem_wires.mpr (.inr hm))))
  | read he hc _ ih =>
    exact .read (h.edges_eq hn ▸ he) hc (ih (hclosed _ hn _ (Graph.mem_wires.mpr (.inl ⟨_, he, rfl⟩))))

/-- **The cut.** A path out of the region reaches the exit and goes on behind it. -/
theorem LeadsOn.spells_eq (h : LeadsOn g g' region exit x) (hclosed : g.Closed region)
    (hexit : exit ∈ region) (hn : n ∈ region) (ht : t ∉ region) :
    g'.spells n t = g.spells n exit * g'.spells x t := by
  ext w
  rw [Language.mem_mul]
  constructor
  · intro hw
    rw [mem_spells] at hw
    induction hw with
    | nil => exact absurd hn ht
    | @skip n m w t hm hp ih =>
      rcases (h.mem_successors hn).mp hm with hm | ⟨rfl, rfl⟩
      · obtain ⟨u, hu, v, hv, rfl⟩ := ih (hclosed _ hn _ (Graph.mem_wires.mpr (.inr hm))) ht
        exact ⟨u, .skip hm hu, v, hv, rfl⟩
      · exact ⟨[], .nil n, w, hp, rfl⟩
    | @read n e c w t he hc hp ih =>
      rw [h.edges_eq hn] at he
      obtain ⟨u, hu, v, hv, rfl⟩ := ih (hclosed _ hn _ (Graph.mem_wires.mpr (.inl ⟨_, he, rfl⟩))) ht
      exact ⟨c :: u, .read he hc hu, v, hv, rfl⟩
  · rintro ⟨u, hu, v, hv, rfl⟩
    exact (h.path hclosed hn hu).append (.skip ((h.mem_successors hexit).mpr (.inr ⟨rfl, rfl⟩)) hv)

end

theorem Realizes.spells_through (hf : g.Realizes labels region f l) (h : LeadsOn g g' region f.exit x)
    (ht : t ∉ region) : g'.spells f.entry t = l * g'.spells x t := by
  rw [h.spells_eq hf.closed hf.exit_mem hf.entry_mem ht, hf.spells_eq]

/-- **A loop.** A branch node that leads into the fragment or past it, and that the fragment's exit
leads back to, offers any number of rounds. -/
theorem Realizes.spells_loop {branch exit : Nat} (hf : g.Realizes labels region f l)
    (h : LeadsOn g g' region f.exit branch) (hbranch : branch ∉ region) (hexit : exit ∉ region)
    (hne : branch ≠ exit) (hnode : g'.node branch = ⟨[], [f.entry, exit]⟩)
    (hbare : g'.node exit = {}) : g'.spells branch exit = KStar.kstar l := by
  have hunfold := spells_branch hnode hne
  rw [spells_bare hbare] at hunfold
  apply le_antisymm
  · -- words from inside the region finish a round first
    have hbound : ∀ {n w t}, g'.Path n w t → t = exit →
        (n = branch → w ∈ KStar.kstar l) ∧
          (n ∈ region → w ∈ g.spells n f.exit * KStar.kstar l) ∧ (n = exit → w = []) := by
      intro n w t hw ht
      induction hw with
      | nil n =>
        subst ht
        exact ⟨fun e => absurd e hne.symm, fun hn => absurd hn hexit, fun _ => rfl⟩
      | @skip n m w t hm hp ih =>
        obtain ⟨ihbranch, ihinside, ihexit⟩ := ih ht
        refine ⟨fun e => ?_, fun hn => ?_, fun e => ?_⟩
        · rw [e, hnode, List.mem_pair] at hm
          rcases hm with rfl | rfl
          · rw [← one_add_mul_kstar, Language.mem_add]
            have := ihinside hf.entry_mem
            rw [hf.spells_eq] at this
            exact .inr this
          · rw [ihexit rfl]
            exact Language.nil_mem_kstar l
        · rcases (h.mem_successors hn).mp hm with hm | ⟨rfl, rfl⟩
          · obtain ⟨u, hu, v, hv, rfl⟩ := Language.mem_mul.mp
              (ihinside (hf.closed _ hn _ (mem_wires.mpr (.inr hm))))
            exact Language.append_mem_mul (.skip hm hu) hv
          · exact Language.append_mem_mul (a := []) (.nil _) (ihbranch rfl)
        · rw [e, hbare] at hm
          cases hm
      | @read n e c w t he hc hp ih =>
        obtain ⟨-, ihinside, -⟩ := ih ht
        refine ⟨fun hn => ?_, fun hn => ?_, fun hn => ?_⟩
        · rw [hn, hnode] at he
          cases he
        · rw [h.edges_eq hn] at he
          obtain ⟨u, hu, v, hv, rfl⟩ := Language.mem_mul.mp
            (ihinside (hf.closed _ hn _ (mem_wires.mpr (.inl ⟨e, he, rfl⟩))))
          exact Language.append_mem_mul (a := c :: u) (.read he hc hu) hv
        · rw [hn, hbare] at he
          cases he
    exact fun w hw => (hbound hw rfl).1 rfl
  · refine kstar_le_of_mul_le_right ?_ ?_
    · rw [hunfold]
      exact le_add_self
    · rw [← hf.spells_through h hexit]
      conv_rhs => rw [hunfold]
      exact le_self_add

end IntervalAutomata.Graph
