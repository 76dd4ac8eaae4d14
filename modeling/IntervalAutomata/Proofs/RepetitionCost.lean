import IntervalAutomata.Proofs.FlatFragments
import IntervalAutomata.Proofs.InPlace

/-! # What a repetition costs

The cost is projected from one fragment. A copy has as many nodes as the fragment, and its edges lead to
copies of the nodes that the edges of the fragment lead to; wiring adds two nodes for each option or for
the loop, and no edges. As only the start and targets of edges become states, the projections bound the
nodes and the states, however the copies are wired. -/

namespace IntervalAutomata.Graph

variable {g g' g'' : Graph} {f : Fragment} {k k' n min count : Nat} {max : Option Nat}
variable {order targets : List Nat} {limits : Limits} {region : Set Nat} {labels : Interval → Prop}
variable {l : Language Symbol}

/-! ## Wiring -/

/-- Some nodes more, and edges as they were. -/
structure Wires (g : Graph) (k : Nat) (g' : Graph) : Prop where
  size_eq : g'.size = g.size + k
  edges_eq : ∀ n, (g'.node n).edges = (g.node n).edges

theorem Wires.trans (h : g.Wires k g') (h' : g'.Wires k' g'') : g.Wires (k + k') g'' where
  size_eq := by rw [h'.size_eq, h.size_eq, Nat.add_assoc]
  edges_eq n := (h'.edges_eq n).trans (h.edges_eq n)

theorem wires_connect (g : Graph) (source target : Nat) : g.Wires 0 (g.connect source target) where
  size_eq := size_connect
  edges_eq n := by
    rw [connect, node, node, Array.getD_eq_getD_getElem?, Array.getD_eq_getD_getElem?,
      Array.getElem?_modify]
    split
    · cases g.nodes[n]? <;> rfl
    · rfl

theorem wires_addNode (g : Graph) : g.Wires 1 g.addNode where
  size_eq := size_addNode
  edges_eq n := by rw [node_addNode]

theorem wires_link (f : Fragment) (rest : List Fragment) : g.Wires 0 (g.link f rest) := by
  induction rest generalizing g f with
  | nil => exact ⟨rfl, fun _ => rfl⟩
  | cons next rest ih => exact (wires_connect g f.exit next.entry).trans (ih next)

theorem wires_sequence {fs : List Fragment} (h : fs ≠ []) : g.Wires 0 (g.sequence fs).2 := by
  cases fs with
  | nil => exact absurd rfl h
  | cons f rest => exact wires_link f rest

theorem wires_zeroOrMore (g : Graph) (f : Fragment) : g.Wires 2 (g.zeroOrMore f).2 :=
  ((((wires_addNode g).trans (wires_addNode _)).trans (wires_connect _ _ _)).trans
    (wires_connect _ _ _)).trans (wires_connect _ _ _)

theorem wires_optional (g : Graph) (f : Fragment) : g.Wires 2 (g.optional f).2 :=
  ((((wires_addNode g).trans (wires_addNode _)).trans (wires_connect _ _ _)).trans
    (wires_connect _ _ _)).trans (wires_connect _ _ _)

theorem wires_nested (fs : List Fragment) : g.Wires (2 * fs.length) (g.nested fs).2 := by
  induction fs with
  | nil => exact ⟨rfl, fun _ => rfl⟩
  | cons f rest ih =>
    exact (ih.trans (wires_sequence (List.cons_ne_nil f _))).trans (wires_optional _ _)

/-! ## Copies -/

theorem node_appendCopies (f : Fragment) (count : Nat) (hn : n < g.size) :
    (g.appendCopies order f count).2.node n = g.node n := by
  induction count generalizing g with
  | zero => rfl
  | succ count ih =>
    have hn' : n < (g.appendCopy order).size := Nat.lt_of_lt_of_le hn (by simp)
    exact (ih hn').trans (node_appendCopy_of_lt hn)

theorem size_appendCopies :
    (g.appendCopies order f count).2.size = g.size + count * order.length := by
  induction count generalizing g with
  | zero => simp [appendCopies]
  | succ count ih =>
    have hrest : (g.appendCopies order f (count + 1)).2.size =
        (g.appendCopy order).size + count * order.length := ih
    rw [hrest, size_appendCopy, Nat.succ_mul]
    omega

theorem length_appendCopies (g : Graph) (order : List Nat) (f : Fragment) (count : Nat) :
    (g.appendCopies order f count).1.length = count := by
  induction count generalizing g with
  | zero => rfl
  | succ count ih => exact congrArg (· + 1) (ih _)

/-- The edges of a copy lead to copies of targets. -/
theorem target_appendCopy (hnodup : order.Nodup)
    (htargets : ∀ n ∈ order, ∀ e ∈ (g.node n).edges, e.target ∈ targets)
    (hn : n ∈ Set.Ico g.size (g.appendCopy order).size) {e : Transition}
    (he : e ∈ ((g.appendCopy order).node n).edges) :
    e.target ∈ targets.map fun t => g.size + order.idxOf t := by
  obtain ⟨m, hm, rfl⟩ := exists_copied hnodup hn
  rw [node_appendCopy hm] at he
  obtain ⟨e', he', rfl⟩ := List.mem_map.mp he
  exact List.mem_map.mpr ⟨_, htargets m hm e' he', rfl⟩

/-- Every copy has as many targets as what it was taken from. -/
theorem exists_targets_appendCopies (f : Fragment) (count : Nat) (hnodup : order.Nodup)
    (horder : ∀ n ∈ order, n < g.size)
    (htargets : ∀ n ∈ order, ∀ e ∈ (g.node n).edges, e.target ∈ targets) :
    ∃ copies : List Nat, copies.length = count * targets.length ∧ ∀ n, g.size ≤ n →
      ∀ e ∈ ((g.appendCopies order f count).2.node n).edges, e.target ∈ copies := by
  induction count generalizing g with
  | zero =>
    refine ⟨[], by simp, fun n hn e he => ?_⟩
    rw [appendCopies, node_of_size_le hn] at he
    cases he
  | succ count ih =>
    have hsame : ∀ n ∈ order, (g.appendCopy order).node n = g.node n := fun n hn =>
      node_appendCopy_of_lt (horder n hn)
    obtain ⟨copies, hlength, hcopies⟩ := ih (g := g.appendCopy order)
      (fun n hn => Nat.lt_of_lt_of_le (horder n hn) (by simp))
      fun n hn => by rw [hsame n hn]; exact htargets n hn
    refine ⟨targets.map (fun t => g.size + order.idxOf t) ++ copies, ?_, fun n hn e he => ?_⟩
    · rw [List.length_append, List.length_map, hlength, Nat.succ_mul, Nat.add_comm]
    · rw [List.mem_append]
      by_cases hlt : n < (g.appendCopy order).size
      · have he : e ∈ ((g.appendCopy order).node n).edges := by
          rwa [← node_appendCopies f count hlt]
        exact .inl (target_appendCopy hnodup htargets ⟨hn, hlt⟩ he)
      · exact .inr (hcopies n (Nat.le_of_not_lt hlt) e he)

/-! ## Projections -/

/-- How many copies repetition makes room for, the fragment itself among them. -/
def copiesOf (min : Nat) (max : Option Nat) : Nat := max.getD (min + 1)

theorem copiesOf_pos (min : Nat) (hmax : max ≠ some 0) : 0 < copiesOf min max := by
  cases max with
  | none => exact Nat.succ_pos min
  | some max => exact Nat.pos_of_ne_zero fun h => hmax (congrArg some h)

/-- Nothing that is projected for so many copies is too much. -/
structure Fits (limits : Limits) (g : Graph) (f : Fragment) (copies : Nat) : Prop where
  nodes_le : g.size + copies * ((g.extent f).nodes + 2) ≤ idSpace
  states_le : copies * (g.extent f).targets + 1 ≤ idSpace
  ceiling : ∀ n, limits.maxStates = some n → copies * (g.extent f).targets + 1 ≤ n

/-- The copies, wired as the bounds ask for. -/
def unrolled (g : Graph) (f : Fragment) (min : Nat) (max : Option Nat) : Fragment × Graph :=
  let (more, g) := g.appendCopies (g.collect f) f (copiesOf min max - 1)
  let all := f :: more
  match max with
  | some _ =>
    let (tail, g) := g.nested (all.drop min)
    g.sequence (all.take min ++ tail)
  | none =>
    let (tail, g) := g.zeroOrMore (all.getLastD f)
    g.sequence (all.take min ++ [tail])

theorem outcome_checkIds (k : Nat) :
    (checkIds k).outcome = if k ≤ idSpace then .ok () else .error (.stateLimit idSpace) := by
  unfold checkIds
  split <;> rfl

/-- **Only the projections decide** whether a repetition fails. -/
theorem repetition_cases (limits : Limits) (g : Graph) (f : Fragment) (min : Nat)
    (hmax : max ≠ some 0) :
    Fits limits g f (copiesOf min max) ∧
      (g.repetition limits f min max).outcome = .ok (g.unrolled f min max) ∨
    ¬ Fits limits g f (copiesOf min max) ∧
      ∃ n, (g.repetition limits f min max).outcome = .error (.stateLimit n) := by
  have hrepetition : g.repetition limits f min max = (do
      checkIds (copiesOf min max)
      checkIds (copiesOf min max * ((g.extent f).nodes + 2) + g.size)
      limits.checkProjected (copiesOf min max * (g.extent f).targets + 1)
      pure (g.unrolled f min max)) := by
    rw [repetition, if_neg hmax]
    cases max <;> rfl
  have hcopies : copiesOf min max ≤ copiesOf min max * ((g.extent f).nodes + 2) :=
    Nat.le_mul_of_pos_right _ (by omega)
  rw [hrepetition]
  simp only [Limits.checkProjected, Build.outcome_bind, outcome_checkIds]
  by_cases hnodes : g.size + copiesOf min max * ((g.extent f).nodes + 2) ≤ idSpace
  · rw [if_pos (by omega), if_pos (by omega)]
    by_cases hstates : copiesOf min max * (g.extent f).targets + 1 ≤ idSpace
    · rw [if_pos hstates]
      obtain ⟨hcheck, hceiling⟩ | ⟨n, hcheck, hn, hlt⟩ := limits.checkStates_cases
        (copiesOf min max * (g.extent f).targets + 1)
      · refine .inl ⟨⟨hnodes, hstates, hceiling⟩, ?_⟩
        rw [Except.bind, hcheck]
        rfl
      · refine .inr ⟨fun h => Nat.not_lt_of_le (h.ceiling n hn) hlt, n, ?_⟩
        rw [Except.bind, hcheck]
        rfl
    · rw [if_neg hstates]
      exact .inr ⟨fun h => hstates h.states_le, idSpace, rfl⟩
  · rw [if_neg (c := copiesOf min max * ((g.extent f).nodes + 2) + g.size ≤ idSpace) (by omega)]
    refine .inr ⟨fun h => hnodes h.nodes_le, idSpace, ?_⟩
    split <;> rfl

/-! ## Nodes -/

theorem wires_unrolled (g : Graph) (f : Fragment) (min : Nat) (hmax : max ≠ some 0) :
    ∃ k ≤ 2 * copiesOf min max,
      (g.appendCopies (g.collect f) f (copiesOf min max - 1)).2.Wires k (g.unrolled f min max).2 := by
  have hpos := copiesOf_pos min hmax
  unfold unrolled
  have hlength := length_appendCopies g (g.collect f) f (copiesOf min max - 1)
  generalize g.appendCopies (g.collect f) f (copiesOf min max - 1) = copies at hlength ⊢
  cases max with
  | none =>
    exact ⟨2, by omega, (wires_zeroOrMore _ _).trans (wires_sequence (by simp))⟩
  | some max =>
    refine ⟨_, ?_, (wires_nested _).trans (wires_sequence ?_)⟩
    · rw [List.length_drop, List.length_cons, hlength]
      omega
    · cases min <;> simp [nested]

theorem size_unrolled (hmax : max ≠ some 0) : (g.unrolled f min max).2.size ≤
    g.size + copiesOf min max * ((g.extent f).nodes + 2) := by
  obtain ⟨k, hk, hwires⟩ := wires_unrolled g f min hmax
  have hpos := copiesOf_pos min hmax
  have hnodes : (g.extent f).nodes = (g.collect f).length := rfl
  have hcopies : (copiesOf min max - 1) * (g.collect f).length ≤
      copiesOf min max * (g.collect f).length :=
    Nat.mul_le_mul_right _ (Nat.sub_le _ _)
  rw [hwires.size_eq, size_appendCopies, hnodes, Nat.mul_add]
  omega

/-! ## States -/

/-- An automaton has no more states than a start and the targets of edges. -/
theorem Realizes.size_toAutomaton_le (h : g.Realizes labels region f l) (targets : List Nat)
    (htargets : ∀ n ∈ region, ∀ e ∈ (g.node n).edges, e.target ∈ targets) :
    (g.toAutomaton f).size ≤ targets.length + 1 := by
  have hexplored := h.explored
  rw [Automaton.size, h.states_toAutomaton.1, ← Automaton.size, hexplored.size_assembled, ← Array.length_toList, ← List.length_cons (a := f.entry)]
  refine hexplored.indexed.nodup.length_le_of_subset fun n hn => ?_
  cases (hexplored.mem_items n).mp (Array.mem_toList_iff.mp hn) with
  | start hn =>
    rw [List.mem_singleton.mp hn]
    exact .head _
  | @edge m d hm hd =>
    have hin := h.mem_of_reaches hm
    obtain ⟨k, hk, he⟩ := (h.mem_outlook hin).mp hd
    exact .tail _ (htargets k (h.closed.path_mem hin hk) _ he)

/-- The distinct targets of edges of the fragment. -/
def targetsOf (g : Graph) (f : Fragment) : List Nat :=
  ascending compare ((g.collect f).flatMap fun n => (g.node n).edges.map (·.target))

theorem mem_targetsOf {e : Transition} (hn : n ∈ g.collect f) (he : e ∈ (g.node n).edges) :
    e.target ∈ g.targetsOf f :=
  mem_ascending.mpr (List.mem_flatMap.mpr ⟨n, hn, List.mem_map_of_mem he⟩)

theorem InRange.size_flatten_unrolled (hg : g.InRange) (hf : g.Has f) (hmax : max ≠ some 0)
    (hbounds : ∀ m, max = some m → min ≤ m)
    (h : (g.repetition limits f min max).outcome = .ok (g.unrolled f min max)) :
    ((g.unrolled f min max).2.flatten (g.unrolled f min max).1).value.size ≤
      copiesOf min max * (g.extent f).targets + 1 := by
  have hfragment := hg.realizes_nodesOf hf
  obtain ⟨hnodup, hcollect⟩ := hfragment.collect_spec
  obtain ⟨k, -, hwires⟩ := wires_unrolled g f min hmax
  obtain ⟨copies, hlength, hcopies⟩ := exists_targets_appendCopies f
    (copiesOf min max - 1) hnodup (fun n hn => hfragment.lt n ((hcollect n).mp hn))
    fun n hn e he => mem_targetsOf hn he
  have hbound := (hfragment.repetition hbounds h).realizes.size_toAutomaton_le
    (g.targetsOf f ++ copies) fun n hn e he => ?_
  · have hpos := copiesOf_pos min hmax
    have htotal : (g.targetsOf f ++ copies).length = copiesOf min max * (g.extent f).targets :=
      calc (g.targetsOf f ++ copies).length
          = (copiesOf min max - 1) * (g.targetsOf f).length + (g.targetsOf f).length := by
            rw [List.length_append, hlength, Nat.add_comm]
        _ = copiesOf min max * (g.targetsOf f).length := by
            rw [← Nat.succ_mul, Nat.succ_eq_add_one, Nat.sub_add_cancel hpos]
    exact htotal ▸ hbound
  · rw [hwires.edges_eq] at he
    rcases hn with hn | hn
    · rw [node_appendCopies _ _ (hfragment.lt n hn)] at he
      exact List.mem_append_left _ (mem_targetsOf ((hcollect n).mpr hn) he)
    · exact List.mem_append_right _ (hcopies n hn.1 e he)

/-! ## Repetition in bounds -/

/-- All wires of what repetition leaves lead to nodes. -/
theorem InRange.inRange_repetition {built : Fragment × Graph} (hg : g.InRange) (hf : g.Has f)
    (hbounds : ∀ m, max = some m → min ≤ m)
    (h : (g.repetition limits f min max).outcome = .ok built) :
    built.2.InRange ∧ built.2.Has built.1 := by
  have hbuilt := (hg.realizes hf.entry_lt hf.exit_lt).repetition hbounds h
  have hrealizes := hbuilt.realizes
  refine ⟨fun n hn m hm => ?_, hrealizes.lt _ hrealizes.entry_mem,
    hrealizes.lt _ hrealizes.exit_mem⟩
  have hregion : n < g.size ∨ n ∈ Set.Ico g.size built.2.size :=
    (Nat.lt_or_ge n g.size).imp_right fun hge => ⟨hge, hn⟩
  exact hrealizes.lt m (hrealizes.closed n hregion m hm)

/-- **The projection of a repetition is sound, and its failure leaves no trace.** In place, the graph is
as it was or has no more nodes than projected, all of them with numbers, and then the fragment has no
more states than projected, so that a ceiling holds. -/
theorem InRange.repeat_bounded (hg : g.InRange) (hf : g.Has f)
    (hbounds : ∀ m, max = some m → min ≤ m) (hmax : max ≠ some 0) (limits : Limits) :
    (¬ Fits limits g f (copiesOf min max) ∧
      ∃ n, ((repeatInPlace limits f min max).on g).value = (.error (.stateLimit n), g)) ∨
    Fits limits g f (copiesOf min max) ∧ ∃ built : Fragment × Graph,
      ((repeatInPlace limits f min max).on g).value = (.ok built.1, built.2) ∧
      (g.repetition limits f min max).outcome = .ok built ∧
      built.2.InRange ∧ built.2.Has built.1 ∧
      built.2.size ≤ g.size + copiesOf min max * ((g.extent f).nodes + 2) ∧
      g.size + copiesOf min max * ((g.extent f).nodes + 2) ≤ idSpace ∧
      (built.2.flatten built.1).value.size ≤ copiesOf min max * (g.extent f).targets + 1 ∧
      ∀ n, limits.maxStates = some n → (built.2.flatten built.1).value.size ≤ n := by
  have hvalue : ((repeatInPlace limits f min max).on g).value =
      Edit.settle g (g.repetition limits f min max).outcome := by
    rw [hg.on_repeatInPlace hf]
    rfl
  obtain ⟨hfits, hok⟩ | ⟨hfits, n, herror⟩ := repetition_cases limits g f min hmax
  · have hstates := hg.size_flatten_unrolled hf hmax hbounds hok
    obtain ⟨hrange, hhas⟩ := hg.inRange_repetition hf hbounds hok
    refine .inr ⟨hfits, g.unrolled f min max, ?_, hok, hrange, hhas, size_unrolled hmax,
      hfits.nodes_le, hstates, fun n hn => hstates.trans (hfits.ceiling n hn)⟩
    rw [hvalue, hok]
    rfl
  · refine .inl ⟨hfits, n, ?_⟩
    rw [hvalue, herror]
    rfl

/-- Seven states are projected for three rounds of the two loops. -/
theorem repeat_bounded_twoLoops : twoLoops.InRange ∧ twoLoops.Has ⟨1, 1⟩ ∧
    (∃ n, ((repeatInPlace ⟨some 6, 9⟩ ⟨1, 1⟩ 2 (some 3)).on twoLoops).value =
      (.error (.stateLimit n), twoLoops)) ∧
    ∃ built : Fragment × Graph,
      ((repeatInPlace ⟨some 7, 9⟩ ⟨1, 1⟩ 2 (some 3)).on twoLoops).value =
        (.ok built.1, built.2) ∧
      built.2.size ≤ 18 ∧ (built.2.flatten built.1).value.size ≤ 7 := by
  have hrange : twoLoops.InRange := by decide
  have hf : twoLoops.Has ⟨1, 1⟩ := by decide
  have hextent : twoLoops.extent ⟨1, 1⟩ = ⟨3, 2⟩ := by decide +kernel
  have hbounds : ∀ m, some 3 = some m → 2 ≤ m := fun m hm => Option.some.inj hm ▸ by decide
  refine ⟨hrange, hf, ?_, ?_⟩
  · obtain ⟨-, hfailed⟩ | ⟨hfits, -⟩ :=
      hrange.repeat_bounded hf hbounds (by decide) ⟨some 6, 9⟩
    · exact hfailed
    · have hceiling := hfits.ceiling 6 rfl
      rw [hextent] at hceiling
      exact absurd hceiling (by decide)
  · obtain ⟨hunfit, -⟩ | ⟨-, built, hvalue, -, -, -, hsize, -, -, hstates⟩ :=
      hrange.repeat_bounded hf hbounds (by decide) ⟨some 7, 9⟩
    · refine absurd ⟨?_, ?_, fun n hn => ?_⟩ hunfit
      · rw [hextent]
        decide
      · rw [hextent]
        decide
      · rw [hextent, ← Option.some.inj hn]
        decide
    · rw [hextent] at hsize
      exact ⟨built, hvalue, hsize, hstates 7 rfl⟩

end IntervalAutomata.Graph
