import IntervalAutomata.Automaton.Basic
import IntervalAutomata.Proofs.Ascending

/-! # Intervals and lists of transitions

The orders on intervals and transitions are linear, so lists that ascend in them are sets. In an
ascending list of proper intervals three things are the same: no two of them overlap, each ends before
the next one starts, and each ends before all later ones start. The last form is the one used from here
on (`Apart`); it also makes the list ascend. -/

namespace IntervalAutomata

/-! ## Intervals -/

theorem toNat_le_maxSymbol (c : Char) : c.toNat ≤ maxSymbol := by
  show c.val.toNat ≤ 0x10FFFF
  rcases c.valid with h | ⟨-, h⟩
  · exact Nat.le_of_lt (Nat.lt_trans h (by decide))
  · exact Nat.le_of_lt_succ h

namespace Interval

/-- An interval of symbols that holds at least one. -/
structure Proper (i : Interval) : Prop where
  min_le_max : i.min ≤ i.max
  max_le : i.max ≤ maxSymbol

instance : DecidablePred Proper := fun i =>
  decidable_of_iff (i.min ≤ i.max ∧ i.max ≤ maxSymbol) ⟨fun h => ⟨h.1, h.2⟩, fun h => ⟨h.1, h.2⟩⟩

@[simp] theorem contains_iff {i : Interval} {c : Nat} :
    i.contains c = true ↔ i.min ≤ c ∧ c ≤ i.max := by
  simp [contains]

theorem Proper.contains_min {i : Interval} (h : i.Proper) : i.contains i.min = true := by
  simp [h.min_le_max]

theorem overlaps_eq_false_iff {i j : Interval} :
    i.overlaps j = false ↔ j.max < i.min ∨ i.max < j.min := by
  simp [overlaps, ← Bool.not_eq_true, imp_iff_not_or]

theorem overlaps_comm (i j : Interval) : i.overlaps j = j.overlaps i := Bool.and_comm ..

theorem order_lt_iff {i j : Interval} :
    order i j = .lt ↔ i.min < j.min ∨ i.min = j.min ∧ i.max < j.max := by
  simp [order, compareLex, compareOn, Ordering.then_eq_lt, Nat.compare_eq_lt]

instance : Std.TransCmp order :=
  inferInstanceAs (Std.TransCmp (compareLex _ _))

instance : Std.LawfulEqCmp order where
  compare_self := Std.ReflCmp.compare_self
  eq_of_compare {i j} h := by
    simp only [order, compareLex_eq_eq, compareOn, Nat.compare_eq_eq] at h
    cases i; cases j; simp_all

end Interval

/-! ## Transitions -/

namespace Transition

theorem order_lt_iff {s t : Transition} :
    order s t = .lt ↔ Interval.order s.interval t.interval = .lt ∨
      s.interval = t.interval ∧ s.target < t.target := by
  simp [order, compareLex, compareOn, Ordering.then_eq_lt, Nat.compare_eq_lt,
    Std.LawfulEqCmp.compare_eq_iff_eq]

/-- By lower end, then by upper end, then by target. -/
theorem order_lt_iff_numbers {s t : Transition} : order s t = .lt ↔
    s.interval.min < t.interval.min ∨ s.interval.min = t.interval.min ∧
      (s.interval.max < t.interval.max ∨ s.interval.max = t.interval.max ∧ s.target < t.target) := by
  have hinterval : s.interval = t.interval ↔
      s.interval.min = t.interval.min ∧ s.interval.max = t.interval.max := by
    obtain ⟨⟨_, _⟩, _⟩ := s
    obtain ⟨⟨_, _⟩, _⟩ := t
    exact Interval.mk.injEq .. ▸ Iff.rfl
  rw [order_lt_iff, Interval.order_lt_iff, hinterval]
  omega

instance : Std.TransCmp (fun s t : Transition => Interval.order s.interval t.interval) where
  eq_swap := Std.OrientedCmp.eq_swap
  isLE_trans := Std.TransCmp.isLE_trans

instance : Std.TransCmp order :=
  inferInstanceAs (Std.TransCmp (compareLex _ _))

instance : Std.LawfulEqCmp order where
  compare_self := Std.ReflCmp.compare_self
  eq_of_compare {s t} h := by
    simp only [order, compareLex_eq_eq, compareOn, Std.LawfulEqCmp.compare_eq_iff_eq] at h
    cases s; cases t; simp_all

end Transition

/-! ## Lists without overlaps -/

/-- Every interval ends before all later ones start. -/
def Apart (l : List Transition) : Prop :=
  l.Pairwise fun s t => s.interval.max < t.interval.min

/-- Of two transitions in ascending order that do not overlap the first one ends before the second. -/
theorem Transition.max_lt_min {s t : Transition} (h : order s t = .lt)
    (ht : t.interval.min ≤ t.interval.max) (hst : s.interval.overlaps t.interval = false) :
    s.interval.max < t.interval.min := by
  rcases Interval.overlaps_eq_false_iff.mp hst with hts | hst
  · -- an interval that starts later cannot end before this one starts
    rcases Transition.order_lt_iff.mp h with h | ⟨h, -⟩
    · rcases Interval.order_lt_iff.mp h with h | ⟨h, -⟩ <;> omega
    · rw [h] at hts; omega
  · exact hst

theorem apart_of_not_overlaps {l : List Transition} (hl : Ascends Transition.order l)
    (hp : ∀ t ∈ l, t.interval.Proper)
    (h : l.Pairwise fun s t => s.interval.overlaps t.interval = false) : Apart l :=
  (hl.and h).imp_of_mem fun {_ t} _ ht hst => Transition.max_lt_min hst.1 (hp t ht).min_le_max hst.2

theorem Apart.not_overlaps {l : List Transition} (h : Apart l) :
    l.Pairwise fun s t => s.interval.overlaps t.interval = false :=
  h.imp fun hst => Interval.overlaps_eq_false_iff.mpr (.inr hst)

theorem Apart.ascends {l : List Transition} (h : Apart l) (hp : ∀ t ∈ l, t.interval.Proper) :
    Ascends Transition.order l := by
  refine h.imp_of_mem fun {s t} hs _ hst => ?_
  have := (hp s hs).min_le_max
  exact Transition.order_lt_iff.mpr (.inl (Interval.order_lt_iff.mpr (.inl (by omega))))

theorem separate_iff {l : List Transition} (hends : ∀ t ∈ l, t.interval.min ≤ t.interval.max) :
    separate l = true ↔ Apart l := by
  fun_induction separate l with
  | case1 s t rest ih =>
    rw [Bool.and_eq_true, decide_eq_true_eq, ih fun u hu => hends u (by simp [hu])]
    constructor
    · intro ⟨hst, ht⟩
      refine List.pairwise_cons.mpr ⟨fun u hu => ?_, ht⟩
      rcases List.mem_cons.mp hu with rfl | hu
      · exact hst
      · have htu := (List.pairwise_cons.mp ht).1 u hu
        have := hends t (by simp)
        omega
    · intro h
      exact ⟨(List.pairwise_cons.mp h).1 t (by simp), (List.pairwise_cons.mp h).2⟩
  | case2 l h =>
    match l, h with
    | [], _ => simp [Apart]
    | [_], _ => simp [Apart]
    | s :: t :: rest, h => exact (h s t rest rfl).elim

/-- Where no symbol is covered twice nothing overlaps. -/
theorem apart_of_unique {l : List Transition} (hl : Ascends Transition.order l)
    (hp : ∀ t ∈ l, t.interval.Proper)
    (h : ∀ s ∈ l, ∀ t ∈ l, ∀ c, s.interval.contains c = true → t.interval.contains c = true → s = t) :
    Apart l := by
  refine apart_of_not_overlaps hl hp (hl.imp_of_mem fun {s t} hs ht hst => ?_)
  by_contra hover
  rw [Interval.overlaps_eq_false_iff, not_or] at hover
  have hsp := (hp s hs).min_le_max
  have htp := (hp t ht).min_le_max
  refine ne_of_lt_cmp hst (h s hs t ht (Nat.max s.interval.min t.interval.min) ?_ ?_) <;>
    rw [Interval.contains_iff, Nat.max_eq_max] <;> omega

/-- At most one interval of a list without overlaps covers a symbol. -/
theorem Apart.unique {l : List Transition} (h : Apart l) {s t : Transition} {c : Nat}
    (hs : s ∈ l) (ht : t ∈ l) (hsc : s.interval.contains c = true)
    (htc : t.interval.contains c = true) : s = t := by
  rw [Interval.contains_iff] at hsc htc
  induction l with
  | nil => simp at hs
  | cons u rest ih =>
    obtain ⟨hu, hrest⟩ := List.pairwise_cons.mp h
    rcases List.mem_cons.mp hs with es | hs'
    · rcases List.mem_cons.mp ht with et | ht'
      · rw [es, et]
      · have := hu t ht'; rw [es] at hsc; omega
    · rcases List.mem_cons.mp ht with et | ht'
      · have := hu s hs'; rw [et] at htc; omega
      · exact ih hrest hs' ht'

end IntervalAutomata
