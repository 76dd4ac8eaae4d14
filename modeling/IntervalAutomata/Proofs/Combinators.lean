import IntervalAutomata.Proofs.Unrolling

/-! # Combinators on any fragments

A combinator is exact wherever its operands stand in regions of their own, and the smallest region that
a fragment has is what its entry and its exit lead to. So fragments may lie anywhere in a graph, on loops
or between other wires, as long as no node belongs to two of them. -/

namespace IntervalAutomata.Graph

variable {g : Graph} {f h : Fragment} {fs : List Fragment} {labels : Interval → Prop}
variable {region : Set Nat} {l : Language Symbol} {built : Fragment × Graph}

/-- What the paths from the entry of a fragment to its exit spell. -/
def language (g : Graph) (f : Fragment) : Language Symbol := g.spells f.entry f.exit

/-- Both ends of the fragment are nodes. -/
structure Has (g : Graph) (f : Fragment) : Prop where
  entry_lt : f.entry < g.size
  exit_lt : f.exit < g.size

instance (g : Graph) : DecidablePred g.Has := fun f =>
  decidable_of_iff (f.entry < g.size ∧ f.exit < g.size) ⟨fun h => ⟨h.1, h.2⟩, fun h => ⟨h.1, h.2⟩⟩

theorem Builds.language_eq (h : g.Builds labels region built l) : built.2.language built.1 = l :=
  h.realizes.spells_eq

/-- A fragment stands in the nodes that its ends lead to. -/
theorem InRange.realizes_nodesOf (hg : g.InRange) (hf : g.Has f) :
    g.Realizes (fun _ => True) (g.nodesOf f) f (g.language f) where
  lt := (show g.Closed {n | n < g.size} from hg).nodesOf_subset hf.entry_lt hf.exit_lt
  closed := g.closed_nodesOf f
  labels_edge _ _ _ _ := trivial
  entry_mem := .inl .refl
  exit_mem := .inr .refl
  spells_eq := rfl

/-- Whether two fragments have a node in common shows on what is collected for copies of them. -/
theorem InRange.disjoint_nodesOf (hg : g.InRange) (hf : g.Has f) (hh : g.Has h)
    (hdisjoint : ∀ n ∈ g.collect f, n ∉ g.collect h) : Disjoint (g.nodesOf f) (g.nodesOf h) := by
  refine Set.disjoint_left.mpr fun n hn hn' => hdisjoint n ?_ ?_
  · exact ((hg.realizes_nodesOf hf).collect_spec.2 n).mpr hn
  · exact ((hg.realizes_nodesOf hh).collect_spec.2 n).mpr hn'

theorem InRange.beside (hg : g.InRange) (hfs : ∀ f ∈ fs, g.Has f)
    (hdisjoint : fs.Pairwise fun f h => Disjoint (g.nodesOf f) (g.nodesOf h)) :
    Beside g (fun _ => True) {n | ∃ f ∈ fs, n ∈ g.nodesOf f} fs (fs.map g.language) := by
  induction fs with
  | nil =>
    have hregion : {n | ∃ f ∈ [], n ∈ g.nodesOf f} = ∅ := by simp
    rw [hregion]
    exact .nil
  | cons f fs ih =>
    obtain ⟨hf, hfs⟩ := List.forall_mem_cons.mp hfs
    obtain ⟨hout, hdisjoint⟩ := List.pairwise_cons.mp hdisjoint
    have hregion : {n | ∃ h ∈ f :: fs, n ∈ g.nodesOf h} =
        g.nodesOf f ∪ {n | ∃ h ∈ fs, n ∈ g.nodesOf h} := by
      ext n
      exact List.exists_mem_cons_iff ..
    rw [hregion]
    refine .cons (hg.realizes_nodesOf hf) (ih hfs hdisjoint) (Set.disjoint_left.mpr ?_)
    intro n hn ⟨h, hh, hn'⟩
    exact Set.disjoint_left.mp (hout h hh) hn hn'

/-- **The combinators mean what they say.** On fragments without a common node they spell the product,
the sum and the iterations of what the fragments spelled before, and an embedded automaton spells what
its accepting paths spell. -/
theorem InRange.combinators_exact (hg : g.InRange) (hfs : ∀ f ∈ fs, g.Has f)
    (hdisjoint : fs.Pairwise fun f h => Disjoint (g.nodesOf f) (g.nodesOf h)) :
    (g.sequence fs).2.language (g.sequence fs).1 = (fs.map g.language).prod ∧
    (g.alternation fs).2.language (g.alternation fs).1 = (fs.map g.language).sum ∧
    (∀ f, g.Has f →
      (g.zeroOrMore f).2.language (g.zeroOrMore f).1 = KStar.kstar (g.language f) ∧
      (g.oneOrMore f).2.language (g.oneOrMore f).1 = g.language f * KStar.kstar (g.language f) ∧
      (g.optional f).2.language (g.optional f).1 = g.language f + 1) ∧
    ∀ a : Automaton, a.initial < a.size → (∀ q, ∀ t ∈ a.transitions q, t.target < a.size) →
      (g.embed a).2.language (g.embed a).1 = a.language := by
  have hrow := hg.beside hfs hdisjoint
  refine ⟨hrow.sequence.language_eq, hrow.alternation.language_eq, fun f hf => ?_,
    fun a hinitial htargets => spells_embed htargets hinitial⟩
  have hone := hg.realizes_nodesOf hf
  exact ⟨hone.zeroOrMore.language_eq, hone.oneOrMore.language_eq, hone.optional.language_eq⟩

/-- The two loops through node 1 and, apart from them, a fragment with a loop at its exit and an empty
step back to its entry. -/
def loopsApart : Graph := ⟨twoLoops.nodes ++ #[⟨[⟨⟨100, 100⟩, 4⟩], []⟩, ⟨[⟨⟨101, 101⟩, 4⟩], [3]⟩]⟩

/-- One fragment has its exit where it begins, the other has wires into its entry and out of its exit. -/
theorem combinators_loopsApart :
    loopsApart.InRange ∧ (∀ f ∈ [⟨1, 1⟩, ⟨3, 4⟩], loopsApart.Has f) ∧
    Disjoint (loopsApart.nodesOf ⟨1, 1⟩) (loopsApart.nodesOf ⟨3, 4⟩) ∧
    (loopsApart.sequence [⟨1, 1⟩, ⟨3, 4⟩]).2.language ⟨1, 4⟩ =
      loopsApart.language ⟨1, 1⟩ * loopsApart.language ⟨3, 4⟩ ∧
    (loopsApart.alternation [⟨1, 1⟩, ⟨3, 4⟩]).2.language ⟨5, 6⟩ =
      loopsApart.language ⟨1, 1⟩ + loopsApart.language ⟨3, 4⟩ ∧
    (loopsApart.zeroOrMore ⟨1, 1⟩).2.language ⟨5, 6⟩ = KStar.kstar (loopsApart.language ⟨1, 1⟩) ∧
    (loopsApart.embed (.ofStates [⟨false, [⟨⟨97, 99⟩, 0⟩, ⟨⟨98, 100⟩, 1⟩]⟩, ⟨true, []⟩] 0)).2.language
      ⟨5, 7⟩ =
      (Automaton.ofStates [⟨false, [⟨⟨97, 99⟩, 0⟩, ⟨⟨98, 100⟩, 1⟩]⟩, ⟨true, []⟩] 0).language := by
  have hrange : loopsApart.InRange := by decide
  have hfs : ∀ f ∈ [⟨1, 1⟩, ⟨3, 4⟩], loopsApart.Has f := by decide
  have hdisjoint := hrange.disjoint_nodesOf (hfs ⟨1, 1⟩ (by decide)) (hfs ⟨3, 4⟩ (by decide))
    (by decide)
  have hvalid : (Automaton.ofStates
    [⟨false, [⟨⟨97, 99⟩, 0⟩, ⟨⟨98, 100⟩, 1⟩]⟩, ⟨true, []⟩] 0).Valid := by decide
  obtain ⟨hsequence, halternation, hone, hembed⟩ :=
    hrange.combinators_exact hfs (List.pairwise_pair.mpr hdisjoint)
  refine ⟨hrange, hfs, hdisjoint, ?_, ?_, (hone ⟨1, 1⟩ (hfs _ (by decide))).1,
    hembed _ hvalid.initial_lt hvalid.target_lt⟩
  · exact hsequence.trans (by simp)
  · exact halternation.trans (by simp)

end IntervalAutomata.Graph
