import IntervalAutomata.Graph.Fragment
import IntervalAutomata.Proofs.GraphPaths
import IntervalAutomata.Proofs.Paths

/-! # What the combinators build

Each combinator changes the exits of its operands and adds nodes, and leaves everything else alone. So
the operands go on spelling what they did, each cut at its exit from what comes behind, and the language
of the whole is an expression in theirs. -/

namespace IntervalAutomata.Graph

variable {g g' : Graph} {n m x c : Nat} {w : List Nat} {region area : Set Nat} {f h : Fragment}
variable {l l' : Language Symbol} {labels : Interval → Prop}

/-- A sealed region whose nodes get successors in `area` is sealed together with it. -/
theorem Sealed.extend (hg : g.Sealed labels region) (hsize : g.size ≤ g'.size)
    (hedges : ∀ n ∈ region, (g'.node n).edges = (g.node n).edges)
    (hsuccessors : ∀ n ∈ region, ∀ m ∈ (g'.node n).successors,
      m ∈ (g.node n).successors ∨ m ∈ area)
    (hlt : ∀ n ∈ area, n < g'.size) (hwires : ∀ n ∈ area, ∀ m ∈ g'.wires n, m ∈ region ∪ area)
    (hlabels : ∀ n ∈ area, ∀ e ∈ (g'.node n).edges, labels e.interval) :
    g'.Sealed labels (region ∪ area) where
  lt n hn := hn.elim (fun hn => Nat.lt_of_lt_of_le (hg.lt n hn) hsize) (hlt n)
  closed n hn m hm := by
    rcases hn with hn | hn
    · rcases mem_wires.mp hm with he | hm
      · rw [hedges n hn] at he
        exact .inl (hg.closed n hn m (mem_wires.mpr (.inl he)))
      · exact (hsuccessors n hn m hm).imp_left fun hm => hg.closed n hn m (mem_wires.mpr (.inr hm))
    · exact hwires n hn m hm
  labels_edge n hn := by
    rcases hn with hn | hn
    · rw [hedges n hn]
      exact hg.labels_edge n hn
    · exact hlabels n hn

theorem LeadsOn.successors_mem {exit : Nat} (h : LeadsOn g g' region exit x) (hx : x ∈ area) :
    ∀ n ∈ region, ∀ m ∈ (g'.node n).successors, m ∈ (g.node n).successors ∨ m ∈ area :=
  fun _ hn _ hm => ((h.mem_successors hn).mp hm).imp_right fun ⟨_, e⟩ => e ▸ hx

theorem mem_wires_of_node {successors : List Nat} (h : g.node n = ⟨[], successors⟩) :
    m ∈ g.wires n ↔ m ∈ successors := by
  simp [mem_wires, h]

/-! ## Stages -/

/-- What is built from a region and the nodes added since counts as built from the region. -/
theorem Rewired.builds {built : Fragment × Graph} (h : Rewired region g g')
    (h' : g'.Builds labels (region ∪ Set.Ico g.size g'.size) built l) :
    g.Builds labels region built l where
  toRewired := (h.trans h'.toRewired).mono fun n hn hlt => by
    rcases hn with hn | hn | hn
    · exact hn
    · exact hn
    · exact absurd hn.1 (Nat.not_le_of_lt hlt)
  realizes := by
    have hregion := h'.realizes
    rwa [Set.union_assoc, Set.Ico_union_Ico_eq_Ico h.size_le h'.size_le] at hregion

/-- A sealed region may be counted to what is built next to it. -/
theorem Builds.absorb {built : Fragment × Graph} (h : g.Builds labels ∅ built l)
    (hg : g.Sealed labels region) : g.Builds labels region built l where
  toRewired := h.toRewired.mono nofun
  realizes := by
    have hregion := h.realizes.union (hg.rewired h.toRewired (Set.disjoint_empty region))
    rwa [Set.empty_union] at hregion

/-- What is there already need not be built. -/
theorem Realizes.builds (hf : g.Realizes labels region f l) : g.Builds labels region (f, g) l where
  toRewired := .refl region g
  realizes := by
    rwa [Set.Ico_self, Set.union_empty]

/-! ## Leaves

Where nothing was there before, the new nodes are all there is to check. -/

/-- New nodes by themselves, and none of the old ones changed. -/
theorem builds_of_fresh {built : Fragment × Graph} (hsize : g.size ≤ built.2.size)
    (hold : ∀ n < g.size, built.2.node n = g.node n)
    (hwires : ∀ n ∈ Set.Ico g.size built.2.size, ∀ m ∈ built.2.wires n,
      m ∈ Set.Ico g.size built.2.size)
    (hlabels : ∀ n ∈ Set.Ico g.size built.2.size, ∀ e ∈ (built.2.node n).edges, labels e.interval)
    (hentry : built.1.entry ∈ Set.Ico g.size built.2.size)
    (hexit : built.1.exit ∈ Set.Ico g.size built.2.size)
    (hspells : built.2.spells built.1.entry built.1.exit = l) : g.Builds labels ∅ built l :=
  ⟨⟨hsize, fun n hn _ => hold n hn⟩,
    (sealed_empty g).extend hsize nofun nofun (fun _ hn => hn.2)
      (fun n hn m hm => .inr (hwires n hn m hm)) hlabels, .inr hentry, .inr hexit, hspells⟩

private theorem builds_of_bare {built : Fragment × Graph} (hsize : g.size ≤ built.2.size)
    (hnode : ∀ n, built.2.node n = g.node n) (hentry : built.1.entry ∈ Set.Ico g.size built.2.size)
    (hexit : built.1.exit ∈ Set.Ico g.size built.2.size)
    (hspells : built.2.spells built.1.entry built.1.exit = l) : g.Builds labels ∅ built l := by
  have hbare : ∀ n ∈ Set.Ico g.size built.2.size, built.2.node n = {} := fun n hn =>
    (hnode n).trans (node_of_size_le hn.1)
  refine builds_of_fresh hsize (fun n _ => hnode n) (fun n hn m hm => ?_) (fun n hn => ?_) hentry
    hexit hspells
  · exact absurd ((mem_wires_of_node (hbare n hn)).mp hm) List.not_mem_nil
  · rw [hbare n hn]
    exact nofun

/-- **The empty word.** -/
theorem builds_emptyString (g : Graph) : g.Builds labels ∅ g.emptyString 1 := by
  have hmem : g.size ∈ Set.Ico g.size g.addNode.size := by simp
  refine builds_of_bare (by simp [emptyString]) (fun _ => node_addNode) hmem hmem (spells_bare ?_)
  exact node_addNode.trans (node_of_size_le (Nat.le_refl _))

/-- **No word.** -/
theorem builds_empty (g : Graph) : g.Builds labels ∅ g.empty 0 := by
  have hnode : ∀ n, g.addNode.addNode.node n = g.node n := fun n => by simp
  have hsize : g.addNode.addNode.size = g.size + 2 := by rw [size_addNode, size_addNode]
  have hmem : ∀ n, g.size ≤ n → n < g.size + 2 → n ∈ Set.Ico g.size g.addNode.addNode.size :=
    fun n hle hlt => ⟨hle, hsize ▸ hlt⟩
  refine builds_of_bare (hsize ▸ Nat.le_add_right _ _) hnode (hmem g.size (Nat.le_refl _) (by omega))
    (hmem (g.size + 1) (Nat.le_succ _) (by omega))
    (spells_bare_ne ?_ (Nat.ne_of_lt (Nat.lt_succ_self _)))
  exact (hnode _).trans (node_of_size_le (Nat.le_refl _))

/-- **One symbol.** -/
theorem builds_interval (g : Graph) {i : Interval} (hi : labels i) :
    g.Builds labels ∅ (g.interval i) {w | ∃ c, i.contains c = true ∧ w = [c]} := by
  have hnode : ∀ n, (g.interval i).2.node n =
      if n = g.size then ⟨[⟨i, g.size + 1⟩], []⟩ else g.node n := by
    intro n
    have hfresh : g.node g.size = {} := node_of_size_le (Nat.le_refl _)
    rw [interval, node_addEdge, node_addNode, node_addNode]
    · grind
    · rw [size_addNode, size_addNode]
      omega
  have hsize : (g.interval i).2.size = g.size + 2 := by simp [interval]
  have hentry : (g.interval i).2.node g.size = ⟨[⟨i, g.size + 1⟩], []⟩ := by rw [hnode, if_pos rfl]
  have hexit : (g.interval i).2.node (g.size + 1) = {} := by
    rw [hnode, if_neg (by omega), node_of_size_le (Nat.le_succ _)]
  have hin : g.size ∈ Set.Ico g.size (g.interval i).2.size ∧
      g.size + 1 ∈ Set.Ico g.size (g.interval i).2.size := by
    simp only [Set.mem_Ico, hsize]
    omega
  have hcases : ∀ n ∈ Set.Ico g.size (g.interval i).2.size, n = g.size ∨ n = g.size + 1 := by
    intro n hn
    rw [Set.mem_Ico] at hn
    omega
  refine builds_of_fresh (by omega) (fun n hn => ?_) (fun n hn m hm => ?_) (fun n hn e he => ?_)
    hin.1 hin.2 ?_
  · rw [hnode, if_neg (Nat.ne_of_lt hn)]
  · rcases hcases n hn with rfl | rfl
    · rw [wires, hentry, List.append_nil, List.map_singleton, List.mem_singleton] at hm
      exact hm ▸ hin.2
    · exact absurd ((mem_wires_of_node hexit).mp hm) List.not_mem_nil
  · rcases hcases n hn with rfl | rfl
    · rw [hentry, List.mem_singleton] at he
      exact he ▸ hi
    · rw [hexit] at he
      cases he
  · have hlast := spells_bare hexit
    ext w
    show (g.interval i).2.Path g.size w (g.size + 1) ↔ _
    rw [path_iff, hentry]
    constructor
    · rintro (⟨e, -⟩ | ⟨m, hm, -⟩ | ⟨e, he, c, v, rfl, hc, hv⟩)
      · omega
      · cases hm
      · rw [List.mem_singleton] at he
        subst he
        have hv : v ∈ (g.interval i).2.spells (g.size + 1) (g.size + 1) := hv
        rw [hlast, Language.mem_one] at hv
        exact ⟨c, hc, by rw [hv]⟩
    · rintro ⟨c, hc, rfl⟩
      exact .inr (.inr ⟨_, List.mem_singleton.mpr rfl, c, [], rfl, hc, .nil _⟩)

/-! ## Loops and bypasses

The three of them branch in front of the operand or behind it and differ in where the operand's exit
leads and where the whole begins. -/

/-- A branch node leads into `f` or to a new exit, and the exit of `f` leads to `back`. -/
structure Branched (g g' : Graph) (f : Fragment) (back : Nat) : Prop where
  size_eq : g'.size = g.size + 2
  node_eq : ∀ n, g'.node n =
    if n = f.exit then ⟨(g.node n).edges, (g.node n).successors ++ [back]⟩
    else if n = g.size then ⟨[], [f.entry, g.size + 1]⟩ else g.node n

theorem branched_zeroOrMore (hexit : f.exit < g.size) :
    Branched g (g.zeroOrMore f).2 f g.size where
  size_eq := by simp [zeroOrMore]
  node_eq n := by
    have hfresh : g.node g.size = {} := node_of_size_le (Nat.le_refl _)
    rw [zeroOrMore, node_connect, node_connect, node_connect]
    · simp only [node_addNode]
      grind
    all_goals
      simp only [size_connect, size_addNode]
      omega

theorem branched_oneOrMore (hexit : f.exit < g.size) :
    Branched g (g.oneOrMore f).2 f g.size where
  size_eq := by simp [oneOrMore]
  node_eq n := by
    have hfresh : g.node g.size = {} := node_of_size_le (Nat.le_refl _)
    rw [oneOrMore, node_connect, node_connect, node_connect]
    · simp only [node_addNode]
      grind
    all_goals
      simp only [size_connect, size_addNode]
      omega

theorem branched_optional (hexit : f.exit < g.size) :
    Branched g (g.optional f).2 f (g.size + 1) where
  size_eq := by simp [optional]
  node_eq n := by
    have hfresh : g.node g.size = {} := node_of_size_le (Nat.le_refl _)
    rw [optional, node_connect, node_connect, node_connect]
    · simp only [node_addNode]
      grind
    all_goals
      simp only [size_connect, size_addNode]
      omega

section

variable {back : Nat}

theorem Branched.branch_mem (h : Branched g g' f back) : g.size ∈ Set.Ico g.size g'.size := by
  rw [h.size_eq, Set.mem_Ico]
  omega

theorem Branched.exit_mem (h : Branched g g' f back) : g.size + 1 ∈ Set.Ico g.size g'.size := by
  rw [h.size_eq, Set.mem_Ico]
  omega

theorem Branched.node_branch (h : Branched g g' f back) (hexit : f.exit < g.size) :
    g'.node g.size = ⟨[], [f.entry, g.size + 1]⟩ := by
  rw [h.node_eq, if_neg (Nat.ne_of_gt hexit), if_pos rfl]

theorem Branched.node_exit (h : Branched g g' f back) (hexit : f.exit < g.size) :
    g'.node (g.size + 1) = {} := by
  rw [h.node_eq, if_neg (by omega), if_neg (by omega), node_of_size_le (Nat.le_succ _)]

theorem Branched.leadsOn (h : Branched g g' f back) (hlt : ∀ n ∈ region, n < g.size) :
    LeadsOn g g' region f.exit back where
  node_eq n hn hne := by
    rw [h.node_eq, if_neg hne, if_neg (Nat.ne_of_lt (hlt n hn))]
  node_exit := by rw [h.node_eq, if_pos rfl]

theorem Branched.rewired (h : Branched g g' f back) (hexit : f.exit ∈ region) :
    Rewired region g g' where
  size_le := by rw [h.size_eq]; omega
  node_eq n hn hout := by
    have hne : n ≠ f.exit := fun e => hout (e ▸ hexit)
    rw [h.node_eq, if_neg hne, if_neg (Nat.ne_of_lt hn)]

theorem Branched.sealed (h : Branched g g' f back) (hf : g.Realizes labels region f l)
    (hback : back = g.size ∨ back = g.size + 1) :
    g'.Sealed labels (region ∪ Set.Ico g.size g'.size) := by
  have hexit := hf.lt _ hf.exit_mem
  have hsize := h.size_eq
  have hnew : ∀ n ∈ Set.Ico g.size g'.size, g'.node n = ⟨[], [f.entry, g.size + 1]⟩ ∨
      g'.node n = {} := by
    intro n hn
    rw [Set.mem_Ico] at hn
    rcases (show n = g.size ∨ n = g.size + 1 by omega) with rfl | rfl
    · exact .inl (h.node_branch hexit)
    · exact .inr (h.node_exit hexit)
  have hleads := h.leadsOn hf.lt
  have hmem : back ∈ Set.Ico g.size g'.size := by
    rcases hback with rfl | rfl
    · exact h.branch_mem
    · exact h.exit_mem
  refine hf.toSealed.extend (by omega) (fun n hn => hleads.edges_eq hn) (hleads.successors_mem hmem)
    (fun n hn => hn.2) ?_ ?_
  · intro n hn m hm
    rcases hnew n hn with e | e
    · rcases List.mem_pair.mp ((mem_wires_of_node e).mp hm) with rfl | rfl
      · exact .inl hf.entry_mem
      · exact .inr h.exit_mem
    · exact absurd ((mem_wires_of_node e).mp hm) List.not_mem_nil
  · intro n hn
    rcases hnew n hn with e | e <;> rw [e] <;> exact nofun

theorem Realizes.notMem_of_le (hf : g.Realizes labels region f l) (hn : g.size ≤ n) : n ∉ region :=
  fun h => Nat.not_lt_of_le hn (hf.lt n h)

end

/-- **Any number of rounds.** -/
theorem Realizes.zeroOrMore (hf : g.Realizes labels region f l) :
    g.Builds labels region (g.zeroOrMore f) (KStar.kstar l) := by
  have hexit := hf.lt _ hf.exit_mem
  have h := branched_zeroOrMore hexit
  exact ⟨h.rewired hf.exit_mem, h.sealed hf (.inl rfl), .inr h.branch_mem, .inr h.exit_mem,
    hf.spells_loop (h.leadsOn hf.lt) (hf.notMem_of_le (Nat.le_refl _))
      (hf.notMem_of_le (Nat.le_succ _)) (Nat.ne_of_lt (Nat.lt_succ_self _)) (h.node_branch hexit)
      (h.node_exit hexit)⟩

/-- **At least one round.** -/
theorem Realizes.oneOrMore (hf : g.Realizes labels region f l) :
    g.Builds labels region (g.oneOrMore f) (l * KStar.kstar l) := by
  have hexit := hf.lt _ hf.exit_mem
  have h := branched_oneOrMore hexit
  have hloop := hf.spells_loop (h.leadsOn hf.lt) (hf.notMem_of_le (Nat.le_refl _))
    (hf.notMem_of_le (Nat.le_succ _)) (Nat.ne_of_lt (Nat.lt_succ_self _)) (h.node_branch hexit)
    (h.node_exit hexit)
  refine ⟨h.rewired hf.exit_mem, h.sealed hf (.inl rfl), .inl hf.entry_mem, .inr h.exit_mem, ?_⟩
  rw [← hloop]
  exact hf.spells_through (h.leadsOn hf.lt) (hf.notMem_of_le (Nat.le_succ _))

/-- **One round or none.** -/
theorem Realizes.optional (hf : g.Realizes labels region f l) :
    g.Builds labels region (g.optional f) (l + 1) := by
  have hexit := hf.lt _ hf.exit_mem
  have h := branched_optional hexit
  have hout := hf.notMem_of_le (Nat.le_succ g.size)
  refine ⟨h.rewired hf.exit_mem, h.sealed hf (.inr rfl), .inr h.branch_mem, .inr h.exit_mem, ?_⟩
  calc (g.optional f).2.spells g.size (g.size + 1)
      = (g.optional f).2.spells f.entry (g.size + 1) +
          (g.optional f).2.spells (g.size + 1) (g.size + 1) :=
        spells_branch (h.node_branch hexit) (Nat.ne_of_lt (Nat.lt_succ_self _))
    _ = l + 1 := by
        rw [hf.spells_through (h.leadsOn hf.lt) hout, spells_bare (h.node_exit hexit), mul_one]

/-! ## Rows of fragments -/

/-- Fragments in disjoint regions. -/
inductive Beside (g : Graph) (labels : Interval → Prop) :
    Set Nat → List Fragment → List (Language Symbol) → Prop
  | nil : Beside g labels ∅ [] []
  | cons {region area f fs l ls} : g.Realizes labels region f l → Beside g labels area fs ls →
      Disjoint region area → Beside g labels (region ∪ area) (f :: fs) (l :: ls)

section

variable {fs : List Fragment} {ls : List (Language Symbol)}

theorem Beside.rewired {changed : Set Nat} (h : Beside g labels region fs ls)
    (hg : Rewired changed g g') (hdisjoint : Disjoint region changed) :
    Beside g' labels region fs ls := by
  induction h with
  | nil => exact .nil
  | cons hf _ hd ih =>
    obtain ⟨hleft, hright⟩ := Set.disjoint_union_left.mp hdisjoint
    exact .cons (hf.rewired hg hleft) (ih hright) hd

theorem Beside.sealed (h : Beside g labels region fs ls) : g.Sealed labels region := by
  induction h with
  | nil => exact sealed_empty g
  | cons hf _ _ ih => exact hf.toSealed.union ih

theorem Beside.ends_mem (h : Beside g labels region fs ls) :
    ∀ f ∈ fs, f.entry ∈ region ∧ f.exit ∈ region := by
  induction h with
  | nil => exact nofun
  | cons hf _ _ ih =>
    refine List.forall_mem_cons.mpr ⟨⟨.inl hf.entry_mem, .inl hf.exit_mem⟩, fun f h => ?_⟩
    exact (ih f h).imp .inr .inr

theorem Beside.nodup_exits (h : Beside g labels region fs ls) : (fs.map (·.exit)).Nodup := by
  induction h with
  | nil => exact .nil
  | cons hf hrest hd ih =>
    refine List.nodup_cons.mpr ⟨fun hmem => ?_, ih⟩
    obtain ⟨f', hf', heq⟩ := List.mem_map.mp hmem
    exact Set.disjoint_left.mp hd hf.exit_mem (Set.mem_of_eq_of_mem heq.symm (hrest.ends_mem f' hf').2)

/-- The exits of the fragments lead to `x` as well, and nothing else in the region has changed. -/
def LeadOn (g g' : Graph) (region : Set Nat) (fs : List Fragment) (x : Nat) : Prop :=
  ∀ n ∈ region, g'.node n = if n ∈ fs.map (·.exit) then
    ⟨(g.node n).edges, (g.node n).successors ++ [x]⟩ else g.node n

theorem LeadOn.edges_eq (h : LeadOn g g' region fs x) (hn : n ∈ region) :
    (g'.node n).edges = (g.node n).edges := by
  rw [h n hn]
  split <;> rfl

theorem LeadOn.successors_mem (h : LeadOn g g' region fs x) (hx : x ∈ area) :
    ∀ n ∈ region, ∀ m ∈ (g'.node n).successors, m ∈ (g.node n).successors ∨ m ∈ area := by
  intro n hn m hm
  rw [h n hn] at hm
  split at hm
  · exact (List.mem_append.mp hm).imp_right fun hm => Set.mem_of_eq_of_mem (List.mem_singleton.mp hm) hx
  · exact .inl hm

/-- Every fragment of the row is cut at its own exit from what comes behind. -/
theorem Beside.spells_through {t : Nat} (h : Beside g labels region fs ls)
    (hx : LeadOn g g' region fs x) (ht : t ∉ region) :
    fs.map (fun f => g'.spells f.entry t) = ls.map (· * g'.spells x t) := by
  induction h with
  | nil => rfl
  | @cons region area f fs l ls hf hrest hd ih =>
    rw [Set.mem_union, not_or] at ht
    have hout : ∀ n ∈ region, n ∉ fs.map (·.exit) := by
      intro n hn hmem
      obtain ⟨f', hf', rfl⟩ := List.mem_map.mp hmem
      exact Set.disjoint_left.mp hd hn (hrest.ends_mem f' hf').2
    have hfirst : LeadsOn g g' region f.exit x := by
      refine ⟨fun n hn hne => ?_, ?_⟩
      · rw [hx n (.inl hn), List.map_cons, if_neg]
        exact fun hmem => (List.mem_cons.mp hmem).elim hne (hout n hn)
      · rw [hx _ (.inl hf.exit_mem), List.map_cons, if_pos List.mem_cons_self]
    have hothers : LeadOn g g' area fs x := by
      intro n hn
      have hne : n ≠ f.exit := fun e => Set.disjoint_right.mp hd hn (e ▸ hf.exit_mem)
      rw [hx n (.inr hn), List.map_cons]
      simp only [List.mem_cons, hne, false_or]
    rw [List.map_cons, List.map_cons, hf.spells_through hfirst ht.1, ih hothers ht.2]

end

/-! ## Alternatives -/

section

variable {fs : List Fragment} {ls : List (Language Symbol)} {entry exit : Nat}

/-- Wiring that leads from `entry` through every fragment to `exit`. -/
def fan (g : Graph) (entry exit : Nat) (fs : List Fragment) : Graph :=
  fs.foldl (fun g f => (g.connect entry f.entry).connect f.exit exit) g

@[simp] theorem size_fan : (g.fan entry exit fs).size = g.size := by
  induction fs generalizing g with
  | nil => rfl
  | cons f fs ih => exact ih.trans (by simp)

theorem node_fan (hentry : entry < g.size) (hexits : ∀ f ∈ fs, f.exit < g.size ∧ f.exit ≠ entry)
    (hnodup : (fs.map (·.exit)).Nodup) : (g.fan entry exit fs).node n =
      if n = entry then ⟨(g.node n).edges, (g.node n).successors ++ fs.map (·.entry)⟩
      else if n ∈ fs.map (·.exit) then ⟨(g.node n).edges, (g.node n).successors ++ [exit]⟩
      else g.node n := by
  induction fs generalizing g with
  | nil => simp [fan]
  | cons f fs ih =>
    obtain ⟨hf, hexits⟩ := List.forall_mem_cons.mp hexits
    obtain ⟨hout, hnodup⟩ := List.nodup_cons.mp hnodup
    have hnode : ∀ n, ((g.connect entry f.entry).connect f.exit exit).node n =
        if n = f.exit then ⟨(g.node n).edges, (g.node n).successors ++ [exit]⟩
        else if n = entry then ⟨(g.node n).edges, (g.node n).successors ++ [f.entry]⟩
        else g.node n := by
      intro n
      rw [node_connect (by simpa using hf.1), node_connect hentry]
      grind
    refine (ih (by simpa using hentry) (by simpa using hexits) hnodup).trans ?_
    rw [hnode]
    grind

theorem Beside.fan (hfs : Beside g labels region fs ls) :
    g.Builds labels region
      (⟨g.size, g.size + 1⟩, g.addNode.addNode.fan g.size (g.size + 1) fs) ls.sum := by
  have hlt := hfs.sealed.lt
  have hnode : ∀ n, (g.addNode.addNode.fan g.size (g.size + 1) fs).node n =
      if n = g.size then ⟨[], fs.map (·.entry)⟩
      else if n ∈ fs.map (·.exit) then ⟨(g.node n).edges, (g.node n).successors ++ [g.size + 1]⟩
      else g.node n := by
    intro n
    have hfresh : g.node g.size = {} := node_of_size_le (Nat.le_refl _)
    rw [node_fan (by rw [size_addNode, size_addNode]; omega) (fun f hf => ?_) hfs.nodup_exits]
    · simp only [node_addNode]
      grind
    · have := hlt _ (hfs.ends_mem f hf).2
      rw [size_addNode, size_addNode]
      omega
  have hsize : (g.addNode.addNode.fan g.size (g.size + 1) fs).size = g.size + 2 := by simp
  generalize g.addNode.addNode.fan g.size (g.size + 1) fs = built at hnode hsize
  have hexits : ∀ n ∈ fs.map (·.exit), n ∈ region := by
    intro n hn
    obtain ⟨f, hf, rfl⟩ := List.mem_map.mp hn
    exact (hfs.ends_mem f hf).2
  have hentry : built.node g.size = ⟨[], fs.map (·.entry)⟩ := by rw [hnode, if_pos rfl]
  have hexit : built.node (g.size + 1) = {} := by
    rw [hnode, if_neg (by omega), if_neg fun h => ?_, node_of_size_le (Nat.le_succ _)]
    exact absurd (hlt _ (hexits _ h)) (Nat.not_lt_of_le (Nat.le_succ _))
  have hlead : LeadOn g built region fs (g.size + 1) := fun n hn => by
    rw [hnode, if_neg (Nat.ne_of_lt (hlt n hn))]
  have hin : g.size ∈ Set.Ico g.size built.size ∧ g.size + 1 ∈ Set.Ico g.size built.size := by
    simp only [Set.mem_Ico, hsize]
    omega
  have hsealed : built.Sealed labels (region ∪ Set.Ico g.size built.size) := by
    refine hfs.sealed.extend (by omega) (fun n hn => hlead.edges_eq hn) (hlead.successors_mem hin.2)
      (fun n hn => hn.2) ?_ ?_
    all_goals
      intro n hn
      rw [Set.mem_Ico] at hn
      rcases (show n = g.size ∨ n = g.size + 1 by omega) with rfl | rfl
    · intro m hm
      obtain ⟨f, hf, rfl⟩ := List.mem_map.mp ((mem_wires_of_node hentry).mp hm)
      exact .inl (hfs.ends_mem f hf).1
    · intro m hm
      exact absurd ((mem_wires_of_node hexit).mp hm) List.not_mem_nil
    · rw [hentry]
      exact nofun
    · rw [hexit]
      exact nofun
  have hspells : built.spells g.size (g.size + 1) = ls.sum := by
    have hout : g.size + 1 ∉ region := fun h => absurd (hlt _ h) (Nat.not_lt_of_le (Nat.le_succ _))
    have hthrough : fs.map (fun f => built.spells f.entry (g.size + 1)) = ls := by
      rw [hfs.spells_through hlead hout, spells_bare hexit]
      simp
    rw [spells_fork hentry (Nat.ne_of_lt (Nat.lt_succ_self _)), List.map_map]
    exact congrArg List.sum hthrough
  refine ⟨⟨hsize ▸ Nat.le_add_right _ _, fun n hn hout => ?_⟩, hsealed, .inr hin.1, .inr hin.2,
    hspells⟩
  rw [hnode, if_neg (Nat.ne_of_lt hn), if_neg fun h => hout (hexits n h)]

/-- **Any one of them.** -/
theorem Beside.alternation (hfs : Beside g labels region fs ls) :
    g.Builds labels region (g.alternation fs) ls.sum := by
  match fs, hfs with
  | [], .nil => exact builds_empty g
  | [f], .cons hf .nil _ =>
    rw [Set.union_empty, List.sum_singleton]
    exact hf.builds
  | f :: h :: fs, hfs => exact hfs.fan

/-- **One or the other.** -/
theorem Realizes.alternation (hf : g.Realizes labels region f l) (hh : g.Realizes labels area h l')
    (hdisjoint : Disjoint region area) :
    g.Builds labels (region ∪ area) (g.alternation [f, h]) (l + l') := by
  have hpair := Beside.cons hf (.cons hh .nil (Set.disjoint_empty area)) (by rwa [Set.union_empty])
  simpa using hpair.alternation

end

/-! ## Sequences -/

theorem rewired_connect (hf : g.Realizes labels region f l) :
    Rewired region g (g.connect f.exit x) where
  size_le := by simp
  node_eq n _ hout := by
    have hne : n ≠ f.exit := fun e => hout (e ▸ hf.exit_mem)
    rw [node_connect (hf.lt _ hf.exit_mem), if_neg hne]

@[simp] theorem size_link {rest : List Fragment} : (g.link f rest).size = g.size := by
  induction rest generalizing g f with
  | nil => rfl
  | cons next rest ih => rw [link, ih, size_connect]

theorem Realizes.link {rest : List Fragment} {ls : List (Language Symbol)}
    (hf : g.Realizes labels region f l) (hrest : Beside g labels area rest ls)
    (hdisjoint : Disjoint region area) :
    Rewired (region ∪ area) g (g.link f rest) ∧
      (g.link f rest).Realizes labels (region ∪ area) ⟨f.entry, (rest.getLastD f).exit⟩
        (l * ls.prod) := by
  induction rest generalizing g f region area l ls with
  | nil =>
    cases hrest
    rw [Set.union_empty, List.prod_nil, mul_one]
    exact ⟨.refl _ _, hf⟩
  | cons next rest ih =>
    cases hrest with
    | @cons region' area' _ _ l' ls' hnext hrest hd =>
    have hwired : Rewired region g (g.connect f.exit next.entry) := rewired_connect hf
    obtain ⟨hleft, hright⟩ := Set.disjoint_union_right.mp hdisjoint
    obtain ⟨hrewired, hlinked⟩ := ih (hnext.rewired hwired hleft.symm)
      (hrest.rewired hwired hright.symm) hd
    have hleads : LeadsOn g (g.link f (next :: rest)) region f.exit next.entry := by
      have hsame : ∀ n ∈ region, (g.link f (next :: rest)).node n =
          (g.connect f.exit next.entry).node n := fun n hn =>
        hrewired.node_eq n (by rw [size_connect]; exact hf.lt n hn)
          (Set.disjoint_left.mp hdisjoint hn)
      refine ⟨fun n hn hne => ?_, ?_⟩
      · rw [hsame n hn, node_connect (hf.lt _ hf.exit_mem), if_neg hne]
      · rw [hsame _ hf.exit_mem, node_connect (hf.lt _ hf.exit_mem), if_pos rfl]
    refine ⟨hwired.trans hrewired, hf.toSealed.extend ?_ (fun n hn => hleads.edges_eq hn)
      (hleads.successors_mem hlinked.entry_mem) hlinked.lt
      (fun n hn m hm => .inr (hlinked.closed n hn m hm)) hlinked.labels_edge, .inl hf.entry_mem,
      ?_, ?_⟩
    · rw [size_link]
    · rw [List.getLastD_cons]
      exact .inr hlinked.exit_mem
    · have hout := Set.disjoint_right.mp hdisjoint hlinked.exit_mem
      rw [List.getLastD_cons, hf.spells_through hleads hout, List.prod_cons]
      exact congrArg (l * ·) hlinked.spells_eq

/-- **One after the other.** -/
theorem Beside.sequence {fs : List Fragment} {ls : List (Language Symbol)}
    (h : Beside g labels region fs ls) : g.Builds labels region (g.sequence fs) ls.prod := by
  cases h with
  | nil => exact g.builds_emptyString
  | cons hf hrest hdisjoint =>
    obtain ⟨hrewired, hrealizes⟩ := hf.link hrest hdisjoint
    refine ⟨hrewired, ?_⟩
    rw [Graph.sequence, size_link, Set.Ico_self, Set.union_empty, List.prod_cons]
    exact hrealizes

/-! ## Embedded automata -/

section

variable {a : Automaton} {q : Nat}

theorem size_embed : (g.embed a).2.size = g.size + a.size + 1 := by
  simp [embed, size, Automaton.size, Nat.add_assoc]

theorem node_embed_of_lt (hn : n < g.size) : (g.embed a).2.node n = g.node n := by
  have hn : n < g.nodes.size := hn
  simp [embed, node, Array.getD_eq_getD_getElem?, Array.getElem?_append, hn]

theorem node_embed_state (hq : q < a.size) : (g.embed a).2.node (g.size + q) =
    ⟨(a.transitions q).map fun t => ⟨t.interval, g.size + t.target⟩,
      if a.isAccepting q then [g.size + a.size] else []⟩ := by
  have hq : q < a.states.size := hq
  simp [embed, node, size, Automaton.transitions, Automaton.isAccepting, Automaton.state,
    Array.getD_eq_getD_getElem?, Array.getElem?_push, Array.getElem?_append, hq, Automaton.size]
  grind

theorem node_embed_exit : (g.embed a).2.node (g.size + a.size) = {} := by
  simp [embed, node, size, Array.getD_eq_getD_getElem?, Automaton.size, Array.getElem_push]

/-- From an embedded state the exit is reached on what the automaton accepts there. -/
theorem spells_embed (ha : ∀ p, ∀ t ∈ a.transitions p, t.target < a.size) (hq : q < a.size) :
    (g.embed a).2.spells (g.size + q) (g.size + a.size) = a.residual q := by
  have hexit : (g.embed a).2.spells (g.size + a.size) (g.size + a.size) = 1 :=
    spells_bare node_embed_exit
  have hne : ¬ g.size + q = g.size + a.size := by omega
  ext w
  induction w generalizing q with
  | nil =>
    rw [mem_spells, path_iff, node_embed_state hq, Automaton.nil_mem_residual]
    split
    · simp [*, Path.nil]
    · simp [*, Nat.ne_of_lt hq]
  | cons c w ih =>
    rw [mem_spells, path_iff, node_embed_state hq, Automaton.cons_mem_residual]
    have hskip : ¬ ∃ m ∈ (if a.isAccepting q = true then [g.size + a.size] else []),
        (g.embed a).2.Path m (c :: w) (g.size + a.size) := by
      intro ⟨m, hm, hp⟩
      split at hm
      · rw [List.mem_singleton.mp hm, ← mem_spells, hexit] at hp
        cases hp
      · cases hm
    simp only [hne, hskip, false_and, false_or, List.mem_map, List.cons.injEq]
    constructor
    · intro ⟨_, ⟨t, ht, rfl⟩, _, _, ⟨rfl, rfl⟩, hc, hp⟩
      have hlt := ha q t ht
      exact ⟨t.target, ⟨t, ht, hc, rfl⟩, (ih hlt (by omega)).mp hp⟩
    · intro ⟨_, ⟨t, ht, hc, rfl⟩, hw⟩
      have hlt := ha q t ht
      exact ⟨_, ⟨t, ht, rfl⟩, c, w, ⟨rfl, rfl⟩, hc, (ih hlt (by omega)).mpr hw⟩

/-- **An embedded automaton keeps its language.** -/
theorem builds_embed (g : Graph) (ha : a.Valid) :
    g.Builds Interval.Proper ∅ (g.embed a) a.language := by
  have hsize : (g.embed a).2.size = g.size + a.size + 1 := size_embed
  have hcases : ∀ n ∈ Set.Ico g.size (g.embed a).2.size,
      (∃ q < a.size, n = g.size + q) ∨ n = g.size + a.size := by
    intro n hn
    rw [Set.mem_Ico] at hn
    by_cases hlt : n < g.size + a.size
    · exact .inl ⟨n - g.size, by omega, by omega⟩
    · exact .inr (by omega)
  have hin : ∀ q ≤ a.size, g.size + q ∈ Set.Ico g.size (g.embed a).2.size := by
    intro q hq
    rw [Set.mem_Ico]
    omega
  refine builds_of_fresh (by omega) (fun n hn => node_embed_of_lt hn) (fun n hn m hm => ?_)
    (fun n hn e he => ?_) (hin _ (Nat.le_of_lt ha.initial_lt)) (hin _ (Nat.le_refl _))
    (spells_embed ha.target_lt ha.initial_lt)
  · rcases hcases n hn with ⟨q, hq, rfl⟩ | rfl
    · rw [mem_wires, node_embed_state hq] at hm
      rcases hm with ⟨e, he, rfl⟩ | hm
      · obtain ⟨t, ht, rfl⟩ := List.mem_map.mp he
        exact hin _ (Nat.le_of_lt (ha.target_lt q t ht))
      · dsimp only at hm
        split at hm
        · exact List.mem_singleton.mp hm ▸ hin _ (Nat.le_refl _)
        · cases hm
    · exact absurd ((mem_wires_of_node node_embed_exit).mp hm) List.not_mem_nil
  · rcases hcases n hn with ⟨q, hq, rfl⟩ | rfl
    · rw [node_embed_state hq] at he
      obtain ⟨t, ht, rfl⟩ := List.mem_map.mp he
      exact ha.proper q t ht
    · rw [node_embed_exit] at he
      cases he

end

end IntervalAutomata.Graph
