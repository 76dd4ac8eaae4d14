import IntervalAutomata.Graph.Repetition
import IntervalAutomata.Proofs.Build
import IntervalAutomata.Proofs.Denotation
import IntervalAutomata.Proofs.Fragments
import IntervalAutomata.Proofs.GraphSearch
import Mathlib.Order.Interval.Set.Disjoint

/-! # Unrolling a repetition

The nodes of a fragment are closed under wires, so a copy with its wires renamed is the same graph once
more, and copies stand in regions of their own. In a row they spell a power, nested behind options the
powers up to some number, and a loop at the end all powers from some number on. -/

namespace IntervalAutomata.Graph

variable {g g' : Graph} {n m t c : Nat} {w : List Nat} {region area : Set Nat} {f : Fragment}
variable {l : Language Symbol} {labels : Interval → Prop} {order : List Nat}

/-! ## Copies -/

/-- All nodes that a fragment needs, each listed once. -/
structure Collected (g : Graph) (region : Set Nat) (f : Fragment) (order : List Nat) : Prop where
  nodup : order.Nodup
  mem_region : ∀ n ∈ order, n ∈ region
  closed : ∀ n ∈ order, ∀ m ∈ g.wires n, m ∈ order
  entry_mem : f.entry ∈ order
  exit_mem : f.exit ∈ order

/-- Collecting finds the nodes of the fragment, each once. -/
theorem Realizes.collect_spec (hf : g.Realizes labels region f l) :
    (g.collect f).Nodup ∧ ∀ n, n ∈ g.collect f ↔ n ∈ g.nodesOf f := by
  have hstarts : ∀ n, (∃ s ∈ [f.exit, f.entry], Leads g.wires s n) ↔ n ∈ g.nodesOf f := by
    intro n
    simp [nodesOf, or_comm]
  have hstay := hf.closed.nodesOf_subset hf.entry_mem hf.exit_mem
  obtain ⟨hnodup, hmem⟩ : (g.collect f).Nodup ∧
      ∀ n, n ∈ g.collect f ↔ ∃ s ∈ [f.exit, f.entry], Leads g.wires s n :=
    search_spec (fun _ _ => Nat.le_refl _) fun n hn => hf.lt n (hstay ((hstarts n).mp hn))
  exact ⟨hnodup, fun n => (hmem n).trans (hstarts n)⟩

theorem Realizes.collect (hf : g.Realizes labels region f l) : g.Collected region f (g.collect f) := by
  obtain ⟨hnodup, hmem⟩ := hf.collect_spec
  refine ⟨hnodup, fun n hn => ?_, fun n hn m hm => ?_, (hmem _).mpr (.inl .refl),
    (hmem _).mpr (.inr .refl)⟩
  · exact hf.closed.nodesOf_subset hf.entry_mem hf.exit_mem ((hmem n).mp hn)
  · exact (hmem m).mpr (g.closed_nodesOf f n ((hmem n).mp hn) m hm)

theorem Collected.congr (h : g.Collected region f order) (hnode : ∀ n ∈ region, g'.node n = g.node n) :
    g'.Collected region f order :=
  ⟨h.nodup, h.mem_region, fun n hn => by
    rw [wires_congr (hnode n (h.mem_region n hn))]
    exact h.closed n hn, h.entry_mem, h.exit_mem⟩

@[simp] theorem size_appendCopy : (g.appendCopy order).size = g.size + order.length := by
  simp [appendCopy, size]

theorem node_appendCopy_of_lt (hn : n < g.size) : (g.appendCopy order).node n = g.node n := by
  have hn : n < g.nodes.size := hn
  simp [appendCopy, node, Array.getD_eq_getD_getElem?, Array.getElem?_append, hn]

/-- The copy of a node has its wires, renamed. -/
theorem node_appendCopy (hn : n ∈ order) : (g.appendCopy order).node (g.size + order.idxOf n) =
    ⟨(g.node n).edges.map fun e => ⟨e.interval, g.size + order.idxOf e.target⟩,
      (g.node n).successors.map fun m => g.size + order.idxOf m⟩ := by
  have hlt := List.idxOf_lt_length_of_mem hn
  simp [appendCopy, node, size, Array.getD_eq_getD_getElem?, hlt]

/-- Every node of a copy is the copy of one node. -/
theorem exists_copied (horder : order.Nodup) (hn : n ∈ Set.Ico g.size (g.appendCopy order).size) :
    ∃ m ∈ order, n = g.size + order.idxOf m := by
  rw [Set.mem_Ico, size_appendCopy] at hn
  have hlt : n - g.size < order.length := by omega
  refine ⟨order[n - g.size], List.getElem_mem hlt, ?_⟩
  rw [horder.idxOf_getElem]
  omega

theorem Collected.path_copy (h : g.Collected region f order) (hn : n ∈ order)
    (hw : g.Path n w t) :
    (g.appendCopy order).Path (g.size + order.idxOf n) w (g.size + order.idxOf t) := by
  induction hw with
  | nil => exact .nil _
  | skip hm _ ih =>
    refine .skip ?_ (ih (h.closed _ hn _ (mem_wires.mpr (.inr hm))))
    rw [node_appendCopy hn]
    exact List.mem_map_of_mem hm
  | @read n e c w t he hc _ ih =>
    have htarget := h.closed _ hn _ (mem_wires.mpr (.inl ⟨e, he, rfl⟩))
    refine .read (e := ⟨e.interval, g.size + order.idxOf e.target⟩) ?_ hc (ih htarget)
    rw [node_appendCopy hn]
    exact List.mem_map.mpr ⟨e, he, rfl⟩

/-- A path from the copy of a node is the copy of a path. -/
theorem Collected.path_of_copy (h : g.Collected region f order) (hn : n ∈ order)
    (hw : (g.appendCopy order).Path (g.size + order.idxOf n) w m) :
    ∃ t ∈ order, m = g.size + order.idxOf t ∧ g.Path n w t := by
  generalize hk : g.size + order.idxOf n = k at hw
  induction hw generalizing n with
  | nil => exact ⟨n, hn, hk.symm, .nil n⟩
  | skip hm _ ih =>
    rw [← hk, node_appendCopy hn] at hm
    obtain ⟨m', hm', rfl⟩ := List.mem_map.mp hm
    obtain ⟨t, ht, rfl, hp⟩ := ih (h.closed n hn _ (mem_wires.mpr (.inr hm'))) rfl
    exact ⟨t, ht, rfl, .skip hm' hp⟩
  | read he hc _ ih =>
    rw [← hk, node_appendCopy hn] at he
    obtain ⟨e', he', rfl⟩ := List.mem_map.mp he
    obtain ⟨t, ht, rfl, hp⟩ := ih (h.closed n hn _ (mem_wires.mpr (.inl ⟨e', he', rfl⟩))) rfl
    exact ⟨t, ht, rfl, .read he' hc hp⟩

/-- **A copy accepts what the fragment accepts.** -/
theorem Realizes.appendCopy (hf : g.Realizes labels region f l) (h : g.Collected region f order) :
    g.Builds labels ∅ (placeCopy g.size order f, g.appendCopy order) l := by
  have hcopy : ∀ n ∈ order, g.size + order.idxOf n ∈ Set.Ico g.size (g.appendCopy order).size := by
    intro n hn
    have := List.idxOf_lt_length_of_mem hn
    rw [Set.mem_Ico, size_appendCopy]
    omega
  refine builds_of_fresh (by simp) (fun n hn => node_appendCopy_of_lt hn) (fun n hn m hm => ?_)
    (fun n hn e he => ?_) (hcopy _ h.entry_mem) (hcopy _ h.exit_mem) ?_
  · obtain ⟨k, hk, rfl⟩ := exists_copied h.nodup hn
    rw [mem_wires, node_appendCopy hk] at hm
    rcases hm with ⟨e, he, rfl⟩ | hm
    · obtain ⟨e', he', rfl⟩ := List.mem_map.mp he
      exact hcopy _ (h.closed k hk _ (mem_wires.mpr (.inl ⟨e', he', rfl⟩)))
    · obtain ⟨m', hm', rfl⟩ := List.mem_map.mp hm
      exact hcopy _ (h.closed k hk _ (mem_wires.mpr (.inr hm')))
  · obtain ⟨k, hk, rfl⟩ := exists_copied h.nodup hn
    rw [node_appendCopy hk] at he
    obtain ⟨e', he', rfl⟩ := List.mem_map.mp he
    exact hf.labels_edge k (h.mem_region k hk) e' he'
  · rw [← hf.spells_eq]
    ext w
    constructor
    · intro hw
      obtain ⟨t, ht, heq, hp⟩ := h.path_of_copy h.entry_mem hw
      have hexit : f.exit = t := (List.idxOf_inj h.exit_mem).mp (Nat.add_left_cancel heq)
      exact hexit ▸ hp
    · exact h.path_copy h.entry_mem

/-- Copies in a row stand side by side, and what they were taken from does not change. -/
theorem Realizes.appendCopies (count : Nat) (hf : g.Realizes labels region f l)
    (h : g.Collected region f order) :
    Rewired ∅ g (g.appendCopies order f count).2 ∧
      Beside (g.appendCopies order f count).2 labels
        (Set.Ico g.size (g.appendCopies order f count).2.size)
        (g.appendCopies order f count).1 (List.replicate count l) := by
  induction count generalizing g with
  | zero =>
    refine ⟨.refl _ _, ?_⟩
    rw [Graph.appendCopies, Set.Ico_self]
    exact .nil
  | succ count ih =>
    obtain ⟨hrewired, hcopy⟩ := hf.appendCopy h
    have hkept : ∀ n ∈ region, (g.appendCopy order).node n = g.node n := fun n hn =>
      node_appendCopy_of_lt (hf.lt n hn)
    obtain ⟨hrest, hbeside⟩ := ih (hf.congr hrewired.size_le hkept) (h.congr hkept)
    refine ⟨(hrewired.trans hrest).mono (by simp), ?_⟩
    have hfirst := hcopy.rewired hrest (Set.disjoint_empty _)
    have hall := Beside.cons hfirst hbeside ?_
    · rwa [Set.empty_union, Set.Ico_union_Ico_eq_Ico hrewired.size_le hrest.size_le] at hall
    · rw [Set.empty_union]
      exact Set.Ico_disjoint_Ico_same

/-! ## Rows of fragments -/

section

variable {fs gs : List Fragment} {ls ms : List (Language Symbol)} {built : Fragment × Graph}

theorem Builds.beside (h : g.Builds labels region built l) :
    Beside built.2 labels (region ∪ Set.Ico g.size built.2.size) [built.1] [l] := by
  have := Beside.cons h.realizes .nil (Set.disjoint_empty _)
  rwa [Set.union_empty] at this

theorem Beside.length_eq (h : Beside g labels region fs ls) : fs.length = ls.length := by
  induction h with
  | nil => rfl
  | cons _ _ _ ih => exact congrArg (· + 1) ih

theorem Beside.append (hf : Beside g labels region fs ls) (hg : Beside g labels area gs ms)
    (hdisjoint : Disjoint region area) : Beside g labels (region ∪ area) (fs ++ gs) (ls ++ ms) := by
  induction hf with
  | nil => rwa [Set.empty_union]
  | cons hf _ hd ih =>
    obtain ⟨hleft, hright⟩ := Set.disjoint_union_left.mp hdisjoint
    rw [Set.union_assoc]
    exact .cons hf (ih hright) (Set.disjoint_union_right.mpr ⟨hd, hleft⟩)

theorem Beside.split (h : Beside g labels region fs ls) (k : Nat) :
    ∃ front back, front ∪ back = region ∧ Disjoint front back ∧
      Beside g labels front (fs.take k) (ls.take k) ∧ Beside g labels back (fs.drop k) (ls.drop k) := by
  induction h generalizing k with
  | nil => exact ⟨∅, ∅, Set.empty_union ∅, Set.disjoint_empty ∅, by simpa using .nil, by simpa using .nil⟩
  | @cons region area f fs l ls hf hrest hd ih =>
    cases k with
    | zero => exact ⟨∅, _, Set.empty_union _, Set.empty_disjoint _, .nil, .cons hf hrest hd⟩
    | succ k =>
      obtain ⟨front, back, rfl, hdisjoint, hfront, hback⟩ := ih k
      obtain ⟨hleft, hright⟩ := Set.disjoint_union_right.mp hd
      exact ⟨region ∪ front, back, Set.union_assoc .., Set.disjoint_union_left.mpr ⟨hright, hdisjoint⟩,
        .cons hf hfront hleft, hback⟩

/-- What is built beside a row of fragments can be put behind it. -/
theorem Beside.sequence_append (hf : Beside g labels region fs ls) (hwired : Rewired area g g')
    (hg : Beside g' labels (area ∪ Set.Ico g.size g'.size) gs ms) (hdisjoint : Disjoint region area) :
    g.Builds labels (region ∪ area) (g'.sequence (fs ++ gs)) (ls.prod * ms.prod) := by
  have hnew : Disjoint region (Set.Ico g.size g'.size) :=
    Set.disjoint_left.mpr fun n hn hn' => Nat.not_lt_of_le hn'.1 (hf.sealed.lt n hn)
  have hrow := ((hf.rewired hwired hdisjoint).append hg
    (Set.disjoint_union_right.mpr ⟨hdisjoint, hnew⟩)).sequence
  rw [List.prod_append, ← Set.union_assoc] at hrow
  exact (hwired.mono fun n hn _ => Or.inr hn).builds hrow

/-- **Nested options spell up to as many rounds as there are fragments.** -/
theorem Beside.nested {n : Nat} (h : Beside g labels region fs (List.replicate n l)) :
    Rewired region g (g.nested fs).2 ∧
      ∃ ls, Beside (g.nested fs).2 labels (region ∪ Set.Ico g.size (g.nested fs).2.size)
        (g.nested fs).1 ls ∧ ls.prod = nestedRounds l n := by
  induction fs generalizing region n with
  | nil =>
    generalize hls : List.replicate n l = ls at h
    cases h
    obtain rfl := (List.replicate_eq_nil_iff l).mp hls
    rw [Graph.nested, Set.Ico_self, Set.union_empty]
    exact ⟨.refl _ _, [], .nil, rfl⟩
  | cons f rest ih =>
    generalize hls : List.replicate n l = ls at h
    cases h with
    | @cons region area _ _ l' ls hf hrest hd =>
    cases n with
    | zero => cases hls
    | succ n =>
    obtain ⟨rfl, rfl⟩ := List.cons.inj hls
    obtain ⟨hwired, ms, hinner, hprod⟩ := ih hrest
    have hfirst := Beside.cons hf .nil (Set.disjoint_empty region)
    rw [Set.union_empty] at hfirst
    have hseq := hfirst.sequence_append hwired hinner hd
    rw [List.prod_singleton, hprod] at hseq
    have htail := hseq.toRewired.builds hseq.realizes.optional
    exact ⟨htail.toRewired, _, htail.beside, List.prod_singleton⟩

end

/-! ## Repetition -/

/-- The fragment itself is the first of its copies. -/
theorem Realizes.copies (hf : g.Realizes labels region f l) (count : Nat) :
    Rewired ∅ g (g.appendCopies (g.collect f) f count).2 ∧
      Beside (g.appendCopies (g.collect f) f count).2 labels
        (region ∪ Set.Ico g.size (g.appendCopies (g.collect f) f count).2.size)
        (f :: (g.appendCopies (g.collect f) f count).1) (List.replicate (count + 1) l) := by
  obtain ⟨hwired, hbeside⟩ := hf.appendCopies count hf.collect
  refine ⟨hwired, .cons (hf.rewired hwired (Set.disjoint_empty _)) hbeside ?_⟩
  exact Set.disjoint_left.mpr fun n hn hn' => Nat.not_lt_of_le hn'.1 (hf.lt n hn)

/-- Mandatory copies, then optional ones. -/
theorem Beside.unroll_some {fs : List Fragment} {min max : Nat}
    (h : Beside g labels region fs (List.replicate max l)) (hle : min ≤ max) :
    g.Builds labels region
      ((g.nested (fs.drop min)).2.sequence (fs.take min ++ (g.nested (fs.drop min)).1))
      (rounds l min (some max)) := by
  obtain ⟨front, back, rfl, hdisjoint, hfront, hback⟩ := h.split min
  rw [List.take_replicate, Nat.min_eq_left hle] at hfront
  rw [List.drop_replicate] at hback
  obtain ⟨hnested, ls, htail, hprod⟩ := hback.nested
  have hbuilt := hfront.sequence_append hnested htail hdisjoint
  rwa [List.prod_replicate, hprod, ← rounds_some hle] at hbuilt

theorem drop_eq_getLastD {α : Type} {xs : List α} {n : Nat} (h : xs.length = n + 1) (x : α) :
    xs.drop n = [xs.getLastD x] := by
  have hne : xs ≠ [] := List.ne_nil_of_length_eq_add_one h
  rw [List.getLastD_eq_getLast?, List.getLast?_eq_some_getLast hne, Option.getD_some,
    ← List.drop_length_sub_one hne, h]
  rfl

/-- Mandatory copies, then a loop. -/
theorem Beside.unroll_none {fs : List Fragment} {min : Nat}
    (h : Beside g labels region fs (List.replicate (min + 1) l)) (f : Fragment) :
    g.Builds labels region ((g.zeroOrMore (fs.getLastD f)).2.sequence
      (fs.take min ++ [(g.zeroOrMore (fs.getLastD f)).1])) (rounds l min none) := by
  have hlength : fs.length = min + 1 := h.length_eq.trans List.length_replicate
  obtain ⟨front, back, rfl, hdisjoint, hfront, hback⟩ := h.split min
  rw [List.take_replicate, Nat.min_eq_left (Nat.le_succ min)] at hfront
  rw [drop_eq_getLastD hlength f, List.drop_replicate, Nat.add_sub_cancel_left,
    List.replicate_one] at hback
  cases hback with
  | cons hlast hnil _ =>
    cases hnil
    rw [Set.union_empty] at hdisjoint ⊢
    have hloop := hlast.zeroOrMore
    have hbuilt := hfront.sequence_append hloop.toRewired hloop.beside hdisjoint
    rwa [List.prod_replicate, List.prod_singleton, ← rounds_none] at hbuilt

/-- **Unrolling spells the rounds between the bounds**, whenever it succeeds. -/
theorem Realizes.repetition {limits : Limits} {min : Nat} {max : Option Nat}
    {built : Fragment × Graph} (hf : g.Realizes labels region f l)
    (hbounds : ∀ m, max = some m → min ≤ m)
    (h : (g.repetition limits f min max).outcome = .ok built) :
    g.Builds labels region built (rounds l min max) := by
  unfold Graph.repetition at h
  split at h
  · rename_i hzero
    obtain rfl := Build.outcome_pure_eq_ok.mp h
    obtain rfl := Nat.le_zero.mp (hbounds 0 hzero)
    rw [hzero, rounds_some (Nat.le_refl 0), pow_zero, one_mul]
    exact (builds_emptyString g).absorb hf.toSealed
  rename_i hzero
  obtain ⟨_, -, h⟩ := Build.outcome_bind_eq_ok.mp h
  obtain ⟨_, -, h⟩ := Build.outcome_bind_eq_ok.mp h
  obtain ⟨_, -, h⟩ := Build.outcome_bind_eq_ok.mp h
  obtain ⟨hwired, hrow⟩ := hf.copies (max.getD (min + 1) - 1)
  refine (hwired.mono nofun).builds ?_
  cases max with
  | some max =>
    obtain rfl := Build.outcome_pure_eq_ok.mp h
    have hcount : (some max).getD (min + 1) - 1 + 1 = max :=
      Nat.succ_pred_eq_of_ne_zero fun e => hzero (e ▸ rfl)
    rw [hcount] at hrow
    exact hrow.unroll_some (hbounds max rfl)
  | none =>
    obtain rfl := Build.outcome_pure_eq_ok.mp h
    exact hrow.unroll_none f

/-! ## Repetition of any fragment

All nodes of the graph make one region, so the fragment may share nodes with others, end where it
starts, or be part of a loop. Nothing is asked of the intervals on the edges. -/

/-- Every wire leads to a node. -/
def InRange (g : Graph) : Prop := ∀ n < g.size, ∀ m ∈ g.wires n, m < g.size

instance (g : Graph) : Decidable g.InRange :=
  inferInstanceAs (Decidable (∀ n < g.size, ∀ m ∈ g.wires n, m < g.size))

theorem InRange.realizes (hg : g.InRange) (hentry : f.entry < g.size) (hexit : f.exit < g.size) :
    g.Realizes (fun _ => True) {n | n < g.size} f (g.spells f.entry f.exit) where
  lt _ hn := hn
  closed := hg
  labels_edge _ _ _ _ := trivial
  entry_mem := hentry
  exit_mem := hexit
  spells_eq := rfl

/-- **Repetition is exact.** What it returns spells the rounds of the fragment whose number lies between
the bounds, where the fragment is taken as it stood before. -/
theorem InRange.repetition_exact {limits : Limits} {min : Nat} {max : Option Nat}
    {built : Fragment × Graph} (hg : g.InRange) (hentry : f.entry < g.size) (hexit : f.exit < g.size)
    (hbounds : ∀ m, max = some m → min ≤ m)
    (h : (g.repetition limits f min max).outcome = .ok built) (w : List Symbol) :
    built.2.Path built.1.entry w built.1.exit ↔
      ∃ parts : List (List Symbol), w = parts.flatten ∧ (∀ u ∈ parts, g.Path f.entry u f.exit) ∧
        min ≤ parts.length ∧ ∀ m, max = some m → parts.length ≤ m := by
  have hbuilt := ((hg.realizes hentry hexit).repetition hbounds h).realizes.spells_eq
  rw [← mem_spells, hbuilt, mem_rounds]
  constructor
  · intro ⟨k, hmin, hmax, hw⟩
    obtain ⟨parts, rfl, rfl, hparts⟩ := Language.mem_pow.mp hw
    exact ⟨parts, rfl, hparts, hmin, hmax⟩
  · intro ⟨parts, hw, hparts, hmin, hmax⟩
    exact ⟨parts.length, hmin, hmax, Language.mem_pow.mpr ⟨parts, hw, rfl, hparts⟩⟩

/-- Two loops through one node, with an edge and an empty step each. -/
def twoLoops : Graph := ⟨#[⟨[⟨⟨97, 97⟩, 1⟩], [2]⟩, ⟨[], [0]⟩, ⟨[⟨⟨98, 99⟩, 0⟩], []⟩]⟩

theorem repetition_twoLoops : twoLoops.InRange ∧
    ∃ built, (twoLoops.repetition {} ⟨1, 1⟩ 2 (some 3)).outcome = .ok built ∧
      ∀ w : List Symbol, built.2.Path built.1.entry w built.1.exit ↔
        ∃ parts : List (List Symbol), w = parts.flatten ∧ (∀ u ∈ parts, twoLoops.Path 1 u 1) ∧
          2 ≤ parts.length ∧ ∀ m, some 3 = some m → parts.length ≤ m := by
  have hrange : twoLoops.InRange := by decide
  obtain ⟨built, hbuilt⟩ := Build.exists_outcome_eq_ok
    (b := twoLoops.repetition {} ⟨1, 1⟩ 2 (some 3)) (by decide +kernel)
  exact ⟨hrange, built, hbuilt, hrange.repetition_exact (by decide) (by decide)
    (fun m hm => Option.some.inj hm ▸ by decide) hbuilt⟩

end IntervalAutomata.Graph
