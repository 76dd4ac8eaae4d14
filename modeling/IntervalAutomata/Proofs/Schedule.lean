import IntervalAutomata.Proofs.Refinement
import IntervalAutomata.Proofs.Trim

/-! # The schedule comes to its end

A round serves the next splitter of the schedule, and what a round does is known (`Refining.serve`), so
the invariant holds after any number of rounds. It bounds the schedule by the number of blocks, which
cannot exceed the number of elements; so the rounds come to an end, and the fuel of a run lasts that
long. The partition that is left tells the residuals apart. The sink accepts nothing and a state of a
trimmed automaton accepts something, so the sink is alone in its block. -/

namespace IntervalAutomata.Refinement

variable {sources : Sources} {lead : Nat → Nat → Nat} {m : Nat} {r r' : Refinement}

/-- One round: the next splitter is served. -/
def Serves (sources : Sources) (r r' : Refinement) : Prop :=
  ∃ s, r.schedule[r.next]? = some s ∧ r' = r.serve sources s

theorem Refining.rounds (hl : Leading m sources lead) (h : Refining sources.classes m lead r)
    (hrounds : Relation.ReflTransGen (Serves sources) r r') : Refining sources.classes m lead r' := by
  induction hrounds with
  | refl => exact h
  | tail _ hserves ih =>
    obtain ⟨s, hnext, rfl⟩ := hserves
    exact (ih.serve hl hnext).1

/-- No more splitters are served than there are classes for all elements but one. -/
theorem Refining.next_add_le {classes : Nat} (h : Refining classes m lead r) :
    r.next + classes ≤ classes * m := by
  have hblocks := Nat.mul_le_mul_left classes h.clean.blocks_le
  have := h.next_le
  have := h.size_schedule
  omega

theorem rounds_run (sources : Sources) (fuel : Nat) (r : Refinement) :
    Relation.ReflTransGen (Serves sources) r (run sources fuel r) := by
  induction fuel generalizing r with
  | zero => exact .refl
  | succ fuel ih =>
    unfold run
    split
    · rename_i s hnext
      exact .head ⟨s, hnext, rfl⟩ (ih _)
    · exact .refl

/-- With fuel for all rounds a run stops only when nothing is scheduled any more. -/
theorem Refining.not_serves_run (hl : Leading m sources lead) (fuel : Nat)
    (h : Refining sources.classes m lead r) (hfuel : sources.classes * m < fuel + r.next) :
    ¬ Serves sources (Refinement.run sources fuel r) r' := by
  induction fuel generalizing r with
  | zero =>
    have := h.next_add_le
    omega
  | succ fuel ih =>
    unfold Refinement.run
    split
    · rename_i s hnext
      obtain ⟨hserved, hn, -⟩ := h.serve hl hnext
      exact ih hserved (by omega)
    · rename_i hnext
      intro ⟨s, hs, _⟩
      rw [hnext] at hs
      cases hs

end IntervalAutomata.Refinement

namespace IntervalAutomata.Automaton

open Refinement

variable {a : Automaton}

/-- The refinement before the first round. -/
def unrefined (a : Automaton) : Refinement := start a.classSources.classes a

/-- The rounds come to an end, and the partition that is left then is the one that is returned. -/
theorem Valid.refine_ends (ha : a.Valid) (hs : a.Separated) :
    ∃ r, Relation.ReflTransGen (Serves a.classSources) a.unrefined r ∧
      (∀ r', ¬ Serves a.classSources r r') ∧ r.next ≤ a.symbolClasses.length * a.size ∧
      a.refine = r.partition := by
  have hl : Leading (a.size + 1) a.classSources a.lead := leading_classSources ha hs
  have hclasses : a.classSources.classes = a.symbolClasses.length := rfl
  rw [refine_eq, ← hclasses, unrefined]
  generalize a.classSources = sources at hl
  obtain ⟨hstart, hnext, -⟩ := refining_start a hl.lt
  have hrounds := rounds_run sources (sources.classes * (a.size + 2) + 1) (start sources.classes a)
  refine ⟨_, hrounds, fun r' => hstart.not_serves_run hl _ ?_, ?_, rfl⟩
  · have : sources.classes * (a.size + 1) ≤ sources.classes * (a.size + 2) :=
      Nat.mul_le_mul_left _ (Nat.le_succ _)
    omega
  · have hbound := (hstart.rounds hl hrounds).next_add_le
    rw [Nat.mul_succ] at hbound
    exact Nat.le_of_add_le_add_right hbound

/-- **Refinement ends, and its blocks are the residuals.** The rounds from the first refinement on come
to one that leaves nothing scheduled, and it holds the partition. Two elements stand in one block of
the partition exactly when they accept the same words, and no state shares a block with the sink. -/
theorem Valid.refine_exact (ha : a.Valid) (hs : a.Separated) (ht : a.Trimmed) :
    (∃ r, Relation.ReflTransGen (Serves a.classSources) a.unrefined r ∧
      (∀ r', ¬ Serves a.classSources r r') ∧ r.next ≤ a.symbolClasses.length * a.size ∧
      a.refine = r.partition) ∧
    (∀ x < a.size + 1, ∀ y < a.size + 1,
      a.refine.blockOf x = a.refine.blockOf y ↔ ∀ w, w ∈ a.residual x ↔ w ∈ a.residual y) ∧
    (∀ w, w ∉ a.residual a.size) ∧
    ∀ q < a.size, a.refine.blockOf q ≠ a.refine.blockOf a.size := by
  have hblocks := (ha.classifies_refine hs).same_iff
  have hsink : ∀ w, w ∉ a.residual a.size := fun w => by
    rw [residual_sink]
    exact Language.notMem_zero w
  refine ⟨ha.refine_ends hs, fun x hx y hy => ?_, hsink, fun q hq h => ?_⟩
  · rw [hblocks x hx y hy]
    exact Set.ext_iff
  · rw [hblocks q (Nat.lt_succ_of_lt hq) a.size (Nat.lt_succ_self _)] at h
    obtain ⟨w, hw⟩ := (ht q hq).2
    exact hsink w (h ▸ hw)

/-- Two ways to a loop, where each state on the one has a twin on the other. -/
def twins : Automaton :=
  .ofStates [⟨false, [⟨⟨97, 97⟩, 1⟩, ⟨⟨98, 98⟩, 2⟩]⟩, ⟨false, [⟨⟨97, 99⟩, 3⟩]⟩,
    ⟨false, [⟨⟨97, 97⟩, 4⟩, ⟨⟨98, 99⟩, 4⟩]⟩, ⟨true, [⟨⟨97, 97⟩, 3⟩]⟩, ⟨true, [⟨⟨97, 97⟩, 4⟩]⟩] 0

theorem refine_twins : twins.Valid ∧ twins.Separated ∧ twins.Trimmed ∧
    (∀ w, w ∈ twins.residual 1 ↔ w ∈ twins.residual 2) ∧
    (∀ w, w ∈ twins.residual 3 ↔ w ∈ twins.residual 4) ∧
    twins.refine.blockOf 0 ≠ twins.refine.blockOf 5 := by
  have ha : twins.Valid := by decide
  have hs : twins.Separated := (deterministic_ofStates ha).mp (by decide)
  have hways : ∀ q < 5, ∃ w ∈ [[], [97], [98], [97, 97], [98, 98]], twins.walk 0 w = some q := by
    decide
  have hends : ∀ q < 5, ∃ w ∈ [[], [97], [97, 97]], ∃ r ∈ [3, 4], twins.walk q w = some r := by
    decide
  have haccepting : ∀ r ∈ [3, 4], twins.isAccepting r = true := by decide
  have ht : twins.Trimmed := by
    intro q hq
    obtain ⟨u, -, hu⟩ := hways q hq
    obtain ⟨v, -, r, hr, hv⟩ := hends q hq
    exact ⟨⟨u, (ha.walk_eq_some_iff hs).mp hu⟩, v, r, (ha.walk_eq_some_iff hs).mp hv, haccepting r hr⟩
  obtain ⟨-, hblocks, -, hsink⟩ := ha.refine_exact hs ht
  exact ⟨ha, hs, ht, (hblocks 1 (by decide) 2 (by decide)).mp (by decide +kernel),
    (hblocks 3 (by decide) 4 (by decide)).mp (by decide +kernel), hsink 0 (by decide)⟩

end IntervalAutomata.Automaton
