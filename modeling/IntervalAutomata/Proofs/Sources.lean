import IntervalAutomata.Minimize
import IntervalAutomata.Proofs.Arrays
import IntervalAutomata.Proofs.Running
import Mathlib.Data.List.ProdSigma

/-! # Moves backwards

The moves into an element are filled in class by class, so they stand in the order of the classes and a
halving search finds where those of one class begin. What it reads there are the elements that the class
leads to that element, and nothing else. -/

namespace IntervalAutomata

/-! ## Pairs in the order of their classes -/

/-- Where the classes ascend, the pairs of one class are those from the first of its own on, as long as
they are of that class. -/
theorem takeWhile_dropWhile_class {pairs : List (Nat × Nat)} {c : Nat}
    (h : pairs.Pairwise fun x y => x.1 ≤ y.1) :
    (pairs.dropWhile (·.1 < c)).takeWhile (·.1 == c) = pairs.filter (·.1 == c) := by
  induction pairs with
  | nil => rfl
  | cons x pairs ih =>
    obtain ⟨hx, hpairs⟩ := List.pairwise_cons.mp h
    rw [List.dropWhile_cons]
    rcases Nat.lt_trichotomy x.1 c with hlt | heq | hgt
    · have hother : ¬ (x.1 == c) = true := by simpa using Nat.ne_of_lt hlt
      rw [if_pos (decide_eq_true hlt), ih hpairs, List.filter_cons, if_neg hother]
    · -- nothing is left to drop from here on
      have hrest : pairs.dropWhile (·.1 < c) = pairs := by
        cases pairs with
        | nil => rfl
        | cons y pairs =>
          have hy : ¬ decide (y.1 < c) = true := by simpa [← heq] using hx y (by simp)
          rw [List.dropWhile_cons, if_neg hy]
      have hkept : ¬ decide (x.1 < c) = true := by simp [heq]
      have hown : (x.1 == c) = true := by simp [heq]
      rw [if_neg hkept, List.takeWhile_cons, if_pos hown, List.filter_cons, if_pos hown, ← ih hpairs,
        hrest]
    · have hkept : ¬ decide (x.1 < c) = true := by simpa using Nat.le_of_lt hgt
      have hnone : ∀ y ∈ x :: pairs, ¬ (y.1 == c) = true := by
        intro y hy
        rcases List.mem_cons.mp hy with heq | hy
        · simpa [heq] using Nat.ne_of_gt hgt
        · simpa using Nat.ne_of_gt (Nat.lt_of_lt_of_le hgt (hx y hy))
      rw [if_neg hkept, List.takeWhile_cons, if_neg (hnone x List.mem_cons_self),
        List.filter_eq_nil_iff.mpr hnone]

theorem Sources.into_eq {sources : Sources} {target : Nat} (c : Nat)
    (h : (sources.moves.getD target #[]).toList.Pairwise fun x y => x.1 ≤ y.1) :
    sources.into target c =
      ((sources.moves.getD target #[]).toList.filter (·.1 == c)).map (·.2) := by
  have hmono : (sources.moves.getD target #[]).toList.Pairwise fun x y =>
      decide (y.1 < c) = true → decide (x.1 < c) = true := h.imp fun {x y} hxy hy => by
    simp only [decide_eq_true_eq] at hy ⊢
    omega
  rw [into, bisect_eq_dropWhile _ _ _ (Nat.lt_succ_self _) hmono, takeWhile_dropWhile_class h]
  intro x hx
  rw [List.drop_length] at hx
  cases hx

/-! ## Filling in -/

/-- The entries come in the order of the loop, each to the row that it names. -/
theorem toList_foldl_push {α β : Type} (row : β → Nat) (entry : β → α) (xs : List β)
    (rows : Array (Array α)) {t : Nat} (ht : t < rows.size) :
    ((xs.foldl (fun rows x => rows.modify (row x) (·.push (entry x))) rows).getD t #[]).toList =
      (rows.getD t #[]).toList ++ (xs.filter (row · == t)).map entry := by
  induction xs generalizing rows with
  | nil => simp
  | cons x xs ih =>
    rw [List.foldl_cons, ih _ (by simpa using ht)]
    simp only [Array.getD_eq_getD_getElem?, Array.getElem?_modify]
    by_cases hx : row x = t
    · simp [hx, ht]
    · simp [hx]

namespace Automaton

variable {a : Automaton} {t c x : Nat}

/-- The moves into an element: the classes one after the other, each with the sources that it leads
there. -/
theorem toList_classSources (a : Automaton) (ht : t < a.size + 1) :
    (a.classSources.moves.getD t #[]).toList =
      ((a.symbolClasses.zipIdx.product (List.range (a.size + 1))).filter fun move =>
        a.leadOn move.1.1.min move.2 == t).map fun move => (move.1.2, move.2) := by
  have hloops : a.classSources.moves =
      (a.symbolClasses.zipIdx.product (List.range (a.size + 1))).foldl
        (fun moves move => moves.modify (a.leadOn move.1.1.min move.2) (·.push (move.1.2, move.2)))
        (Array.replicate (a.size + 1) #[]) := by
    rw [List.product, List.foldl_flatMap]
    simp only [List.foldl_map]
    rfl
  rw [hloops, toList_foldl_push _ _ _ _ (by simpa using ht), getD_replicate, List.nil_append]

theorem ascends_classSources (a : Automaton) (ht : t < a.size + 1) :
    (a.classSources.moves.getD t #[]).toList.Pairwise fun x y => x.1 ≤ y.1 := by
  rw [toList_classSources a ht, List.pairwise_map]
  refine List.Pairwise.filter _ ?_
  rw [List.product, List.pairwise_flatMap]
  refine ⟨fun cut _ => ?_, ?_⟩
  · exact List.pairwise_map.mpr (List.pairwise_of_forall fun _ _ => Nat.le_refl _)
  · have hclasses : (a.symbolClasses.zipIdx.map (·.2)).Pairwise (· < ·) := by
      rw [List.zipIdx_map_snd]
      exact List.pairwise_lt_range'
    refine (List.pairwise_map.mp hclasses).imp fun {cut cut'} hlt move hmove move' hmove' => ?_
    obtain ⟨q, -, rfl⟩ := List.mem_map.mp hmove
    obtain ⟨q', -, rfl⟩ := List.mem_map.mp hmove'
    exact Nat.le_of_lt hlt

/-- **The table tells which elements a class leads where.** -/
theorem mem_into_classSources (hc : c < a.symbolClasses.length) (ht : t < a.size + 1) :
    x ∈ a.classSources.into t c ↔
      x < a.size + 1 ∧ a.leadOn a.symbolClasses[c].min x = t := by
  rw [Sources.into_eq c (ascends_classSources a ht), toList_classSources a ht]
  constructor
  · intro hx
    obtain ⟨pair, hpair, rfl⟩ := List.mem_map.mp hx
    obtain ⟨hstored, hsame⟩ := List.mem_filter.mp hpair
    obtain ⟨⟨⟨cut, d⟩, y⟩, hmove, rfl⟩ := List.mem_map.mp hstored
    obtain rfl : d = c := beq_iff_eq.mp hsame
    obtain ⟨hlisted, hlead⟩ := List.mem_filter.mp hmove
    obtain ⟨hcut, hy⟩ := List.pair_mem_product.mp hlisted
    obtain ⟨_, hclass⟩ := List.getElem?_eq_some_iff.mp (List.mem_zipIdx_iff_getElem?.mp hcut)
    refine ⟨List.mem_range.mp hy, ?_⟩
    rw [hclass]
    exact beq_iff_eq.mp hlead
  · intro ⟨hx, hlead⟩
    have hcut : (a.symbolClasses[c], c) ∈ a.symbolClasses.zipIdx :=
      List.mem_zipIdx_iff_getElem?.mpr (List.getElem?_eq_getElem hc)
    have hmove := List.pair_mem_product.mpr ⟨hcut, List.mem_range.mpr hx⟩
    refine List.mem_map.mpr ⟨(c, x), List.mem_filter.mpr ⟨?_, beq_self_eq_true c⟩, rfl⟩
    exact List.mem_map.mpr ⟨_, List.mem_filter.mpr ⟨hmove, beq_iff_eq.mpr hlead⟩, rfl⟩

end Automaton

end IntervalAutomata
