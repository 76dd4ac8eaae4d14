import IntervalAutomata.Ascending
import Mathlib.Data.List.Basic
import Mathlib.Tactic.Tauto

/-! # Ascending lists are finite sets

Inserting, merging and sorting keep exactly the members they are given and leave a strictly ascending
list. Two ascending lists with the same members are equal, so every function of ascending lists is a
function of sets. The comparison has to be a linear order whose ties are equalities. -/

namespace IntervalAutomata

def Ascends {α : Type} (cmp : α → α → Ordering) (xs : List α) : Prop :=
  xs.Pairwise fun x y => cmp x y = .lt

instance {α : Type} (cmp : α → α → Ordering) : DecidablePred (Ascends cmp) := fun xs =>
  inferInstanceAs (Decidable (xs.Pairwise _))

section

set_option linter.unusedSectionVars false

variable {α : Type} {cmp : α → α → Ordering} [Std.TransCmp cmp] [Std.LawfulEqCmp cmp]

theorem ne_of_lt_cmp {x y : α} (h : cmp x y = .lt) : x ≠ y := by
  rintro rfl
  have hxx : cmp x x = .eq := Std.ReflCmp.compare_self
  cases h.symm.trans hxx

/-! ## Inserting -/

@[simp] theorem mem_insertAscending {x y : α} {xs : List α} :
    y ∈ insertAscending cmp x xs ↔ y = x ∨ y ∈ xs := by
  induction xs with
  | nil => simp [insertAscending]
  | cons z zs ih =>
    simp only [insertAscending]
    split
    · simp
    · rename_i h
      rw [Std.LawfulEqCmp.eq_of_compare h]; simp
    · simp only [List.mem_cons, ih]; tauto

theorem Ascends.insert {xs : List α} (h : Ascends cmp xs) (x : α) :
    Ascends cmp (insertAscending cmp x xs) := by
  induction xs with
  | nil => exact List.pairwise_singleton _ _
  | cons y ys ih =>
    obtain ⟨hy, hys⟩ := List.pairwise_cons.mp h
    simp only [insertAscending]
    split
    · rename_i hxy
      refine List.pairwise_cons.mpr ⟨?_, h⟩
      intro z hz
      rcases List.mem_cons.mp hz with rfl | hz
      · exact hxy
      · exact Std.TransCmp.lt_trans hxy (hy z hz)
    · exact h
    · rename_i hxy
      refine List.pairwise_cons.mpr ⟨?_, ih hys⟩
      intro z hz
      rcases mem_insertAscending.mp hz with rfl | hz
      · exact Std.OrientedCmp.lt_of_gt hxy
      · exact hy z hz

/-! ## Keeping repetitions -/

@[simp] theorem mem_insertSorted {x y : α} {xs : List α} :
    y ∈ insertSorted cmp x xs ↔ y = x ∨ y ∈ xs := by
  induction xs with
  | nil => simp [insertSorted]
  | cons z zs ih =>
    rw [insertSorted]
    split
    · simp only [List.mem_cons, ih]; tauto
    · exact List.mem_cons

@[simp] theorem mem_sorted {x : α} {xs : List α} : x ∈ sorted cmp xs ↔ x ∈ xs := by
  induction xs with
  | nil => rfl
  | cons y ys ih => rw [sorted, List.foldr_cons, mem_insertSorted, List.mem_cons, ← sorted, ih]

theorem pairwise_insertSorted {xs : List α} (h : xs.Pairwise fun x y => cmp x y = .lt ∨ x = y) (x : α) :
    (insertSorted cmp x xs).Pairwise fun x y => cmp x y = .lt ∨ x = y := by
  induction xs with
  | nil => exact List.pairwise_singleton _ _
  | cons y ys ih =>
    obtain ⟨hy, hys⟩ := List.pairwise_cons.mp h
    rw [insertSorted]
    split
    · rename_i hyx
      refine List.pairwise_cons.mpr ⟨fun z hz => ?_, ih hys⟩
      rcases mem_insertSorted.mp hz with rfl | hz
      · exact .inl hyx
      · exact hy z hz
    · rename_i hyx
      have hxy : cmp x y = .lt ∨ x = y := by
        cases hcmp : cmp y x with
        | lt => exact absurd hcmp hyx
        | eq => exact .inr (Std.LawfulEqCmp.eq_of_compare hcmp).symm
        | gt => exact .inl (Std.OrientedCmp.lt_of_gt hcmp)
      refine List.pairwise_cons.mpr ⟨fun z hz => ?_, h⟩
      rcases List.mem_cons.mp hz with rfl | hlater
      · exact hxy
      rcases hxy with hxy | rfl
      · rcases hy z hlater with hyz | rfl
        · exact .inl (Std.TransCmp.lt_trans hxy hyz)
        · exact .inl hxy
      · exact hy z hlater

theorem pairwise_sorted (xs : List α) : (sorted cmp xs).Pairwise fun x y => cmp x y = .lt ∨ x = y := by
  induction xs with
  | nil => exact List.Pairwise.nil
  | cons x xs ih => exact pairwise_insertSorted ih x

/-! ## Merging -/

theorem mem_mergeHead {x z : α} {rest : List α → List α} {xs : List α}
    (hrest : ∀ ys, z ∈ rest ys ↔ z ∈ xs ∨ z ∈ ys) (ys : List α) :
    z ∈ mergeHead cmp x rest ys ↔ z = x ∨ z ∈ xs ∨ z ∈ ys := by
  induction ys with
  | nil => simp [mergeHead, hrest]
  | cons y ys ih =>
    simp only [mergeHead]
    split
    · simp [hrest]
    · rename_i h
      rw [Std.LawfulEqCmp.eq_of_compare h]
      simp only [List.mem_cons, hrest]; tauto
    · simp only [List.mem_cons, ih]; tauto

@[simp] theorem mem_mergeAscending {z : α} {xs ys : List α} :
    z ∈ mergeAscending cmp xs ys ↔ z ∈ xs ∨ z ∈ ys := by
  induction xs generalizing ys with
  | nil => simp [mergeAscending]
  | cons x xs ih =>
    rw [mergeAscending, mem_mergeHead (fun _ => ih), List.mem_cons, or_assoc]

/-- What stands before everything in both lists can be put in front of their union. -/
private theorem mergeHead_ascends {x : α} {xs : List α} {rest : List α → List α}
    (hx : ∀ z ∈ xs, cmp x z = .lt)
    (hmem : ∀ {ys z}, z ∈ rest ys ↔ z ∈ xs ∨ z ∈ ys)
    (hrest : ∀ {ys}, Ascends cmp ys → Ascends cmp (rest ys)) {ys : List α}
    (hys : Ascends cmp ys) : Ascends cmp (mergeHead cmp x rest ys) := by
  induction ys with
  | nil =>
    refine List.pairwise_cons.mpr ⟨fun z hz => ?_, hrest hys⟩
    rcases hmem.mp hz with hz | hz
    · exact hx z hz
    · simp at hz
  | cons y ys ih =>
    obtain ⟨hy, hys'⟩ := List.pairwise_cons.mp hys
    simp only [mergeHead]
    split
    · rename_i hxy
      refine List.pairwise_cons.mpr ⟨fun z hz => ?_, hrest hys⟩
      rcases hmem.mp hz with hz | hz
      · exact hx z hz
      · rcases List.mem_cons.mp hz with rfl | hz
        · exact hxy
        · exact Std.TransCmp.lt_trans hxy (hy z hz)
    · rename_i hxy
      refine List.pairwise_cons.mpr ⟨fun z hz => ?_, hrest hys'⟩
      rcases hmem.mp hz with hz | hz
      · exact hx z hz
      · exact Std.TransCmp.lt_of_eq_of_lt hxy (hy z hz)
    · rename_i hxy
      have hyx := Std.OrientedCmp.lt_of_gt hxy
      refine List.pairwise_cons.mpr ⟨fun z hz => ?_, ih hys'⟩
      rcases (mem_mergeHead (fun _ => hmem) ys).mp hz with rfl | hz | hz
      · exact hyx
      · exact Std.TransCmp.lt_trans hyx (hx z hz)
      · exact hy z hz

theorem Ascends.merge {xs ys : List α} (hxs : Ascends cmp xs) (hys : Ascends cmp ys) :
    Ascends cmp (mergeAscending cmp xs ys) := by
  induction xs generalizing ys with
  | nil => exact hys
  | cons x xs ih =>
    obtain ⟨hx, hxs⟩ := List.pairwise_cons.mp hxs
    exact mergeHead_ascends hx mem_mergeAscending (ih hxs) hys

/-! ## Sorting -/

theorem mem_mergePairs {x : α} (lists : List (List α)) :
    (∃ xs ∈ mergePairs cmp lists, x ∈ xs) ↔ ∃ xs ∈ lists, x ∈ xs := by
  fun_induction mergePairs cmp lists with
  | case1 xs ys rest ih =>
    rw [List.exists_mem_cons_iff, ih, List.exists_mem_cons_iff, List.exists_mem_cons_iff,
      mem_mergeAscending, or_assoc]
  | case2 => rfl

theorem length_mergePairs (lists : List (List α)) :
    (mergePairs cmp lists).length ≤ (lists.length + 1) / 2 := by
  fun_induction mergePairs cmp lists with
  | case1 xs ys rest ih => simp only [List.length_cons]; omega
  | case2 lists h =>
    match lists, h with
    | [], _ => simp
    | [_], _ => simp
    | xs :: ys :: rest, h => exact (h xs ys rest rfl).elim

theorem ascends_mergePairs {lists : List (List α)} (h : ∀ xs ∈ lists, Ascends cmp xs) :
    ∀ xs ∈ mergePairs cmp lists, Ascends cmp xs := by
  fun_induction mergePairs cmp lists with
  | case1 xs ys rest ih =>
    intro zs hzs
    rcases List.mem_cons.mp hzs with rfl | hzs
    · exact (h xs (by simp)).merge (h ys (by simp))
    · exact ih (fun zs hzs => h zs (by simp [hzs])) zs hzs
  | case2 => exact h

/-- Each round at least halves the number of lists, so as many rounds as lists are enough. -/
theorem mem_mergeRounds {x : α} (fuel : Nat) (lists : List (List α))
    (hfuel : lists.length ≤ fuel + 1) :
    x ∈ mergeRounds cmp fuel lists ↔ ∃ xs ∈ lists, x ∈ xs := by
  fun_induction mergeRounds cmp fuel lists with
  | case1 => simp
  | case2 => simp
  | case3 fuel lists hnil hone ih =>
    have hlen : (mergePairs cmp lists).length ≤ _ := length_mergePairs lists
    match lists, hnil, hone with
    | [_], _, hone => exact (hone _ rfl).elim
    | _ :: _ :: _, _, _ =>
      rw [ih (by simp only [List.length_cons] at hlen hfuel ⊢; omega), mem_mergePairs]
  | case4 xs rest hone =>
    match rest, hone with
    | [], hone => exact (hone rfl).elim
    | _ :: _, _ => simp at hfuel

theorem ascends_mergeRounds (fuel : Nat) (lists : List (List α))
    (h : ∀ xs ∈ lists, Ascends cmp xs) : Ascends cmp (mergeRounds cmp fuel lists) := by
  fun_induction mergeRounds cmp fuel lists with
  | case1 => exact List.Pairwise.nil
  | case2 => exact h _ (by simp)
  | case3 fuel lists _ _ ih => exact ih (ascends_mergePairs h)
  | case4 => exact h _ (by simp)

@[simp] theorem mem_ascending {x : α} {xs : List α} : x ∈ ascending cmp xs ↔ x ∈ xs := by
  rw [ascending, mem_mergeRounds _ _ (by simp)]
  simp only [List.mem_map, exists_exists_and_eq_and, List.mem_singleton, exists_eq_right']

theorem ascends_ascending (xs : List α) : Ascends cmp (ascending cmp xs) := by
  refine ascends_mergeRounds _ _ fun ys hys => ?_
  obtain ⟨y, _, rfl⟩ := List.mem_map.mp hys
  exact List.pairwise_singleton _ _

/-! ## One list for each set -/

theorem Ascends.eq_of_mem_iff {xs ys : List α} (hxs : Ascends cmp xs) (hys : Ascends cmp ys)
    (h : ∀ z, z ∈ xs ↔ z ∈ ys) : xs = ys := by
  induction xs generalizing ys with
  | nil =>
    cases ys with
    | nil => rfl
    | cons y ys => exact absurd ((h y).mpr (by simp)) (by simp)
  | cons x xs ih =>
    cases ys with
    | nil => exact absurd ((h x).mp (by simp)) (by simp)
    | cons y ys =>
      obtain ⟨hx, hxs⟩ := List.pairwise_cons.mp hxs
      obtain ⟨hy, hys'⟩ := List.pairwise_cons.mp hys
      -- each head is the least member of its list
      have hxy : x = y := by
        rcases List.mem_cons.mp ((h x).mp (by simp)) with e | hxys
        · exact e
        rcases List.mem_cons.mp ((h y).mpr (by simp)) with e | hyxs
        · exact e.symm
        exact absurd rfl (ne_of_lt_cmp (Std.TransCmp.lt_trans (hx y hyxs) (hy x hxys)))
      subst hxy
      congr 1
      refine ih hxs hys' fun z => ⟨fun hz => ?_, fun hz => ?_⟩
      · rcases List.mem_cons.mp ((h z).mp (by simp [hz])) with rfl | hz'
        · exact absurd rfl (ne_of_lt_cmp (hx z hz))
        · exact hz'
      · rcases List.mem_cons.mp ((h z).mpr (by simp [hz])) with rfl | hz'
        · exact absurd rfl (ne_of_lt_cmp (hy z hz))
        · exact hz'

theorem ascending_congr {xs ys : List α} (h : ∀ z, z ∈ xs ↔ z ∈ ys) :
    ascending cmp xs = ascending cmp ys :=
  (ascends_ascending xs).eq_of_mem_iff (ascends_ascending ys) (by simpa using h)

theorem Ascends.ascending_eq {xs : List α} (h : Ascends cmp xs) : ascending cmp xs = xs :=
  (ascends_ascending xs).eq_of_mem_iff h (by simp)

theorem Ascends.nodup {xs : List α} (h : Ascends cmp xs) : xs.Nodup :=
  List.Pairwise.imp (fun hlt => ne_of_lt_cmp hlt) h

theorem Ascends.insertAscending_of_mem {x : α} {xs : List α} (h : Ascends cmp xs) (hx : x ∈ xs) :
    insertAscending cmp x xs = xs :=
  (h.insert x).eq_of_mem_iff h fun z => by
    rw [mem_insertAscending, or_iff_right_of_imp fun hz => hz ▸ hx]

theorem Ascends.insertAscending_comm {xs : List α} (h : Ascends cmp xs) (x y : α) :
    insertAscending cmp y (insertAscending cmp x xs) =
      insertAscending cmp x (insertAscending cmp y xs) :=
  ((h.insert x).insert y).eq_of_mem_iff ((h.insert y).insert x) fun z => by
    simp only [mem_insertAscending]
    tauto

/-- Inserting one after the other gathers all. -/
def insertAll (cmp : α → α → Ordering) (xs ys : List α) : List α :=
  xs.foldl (fun ys x => insertAscending cmp x ys) ys

@[simp] theorem mem_insertAll {x : α} {xs ys : List α} : x ∈ insertAll cmp xs ys ↔ x ∈ xs ∨ x ∈ ys := by
  induction xs generalizing ys with
  | nil => simp [insertAll]
  | cons z zs ih =>
    have hcons : insertAll cmp (z :: zs) ys = insertAll cmp zs (insertAscending cmp z ys) := rfl
    rw [hcons, ih, mem_insertAscending, List.mem_cons]
    tauto

theorem Ascends.insertAll {ys : List α} (h : Ascends cmp ys) (xs : List α) :
    Ascends cmp (insertAll cmp xs ys) := by
  induction xs generalizing ys with
  | nil => exact h
  | cons x xs ih => exact ih (h.insert x)

theorem insertAll_nil (xs : List α) : insertAll cmp xs [] = ascending cmp xs := by
  have hnil : Ascends cmp ([] : List α) := List.Pairwise.nil
  exact (hnil.insertAll xs).eq_of_mem_iff (ascends_ascending xs) fun z => by simp

/-! ## Ends -/

/-- The first entry is the one with no smaller entry. -/
theorem Ascends.head?_any_iff {xs : List α} (h : Ascends cmp xs) {P : α → Bool} :
    xs.head?.any P = true ↔ ∃ x ∈ xs, P x = true ∧ ∀ y ∈ xs, cmp y x ≠ .lt := by
  cases xs with
  | nil => simp
  | cons z zs =>
    have hz := (List.pairwise_cons.mp h).1
    rw [List.head?_cons, Option.any_some]
    constructor
    · intro hP
      refine ⟨z, List.mem_cons_self, hP, List.forall_mem_cons.mpr ⟨?_, fun y hy hyz => ?_⟩⟩
      · exact fun hzz => ne_of_lt_cmp hzz rfl
      · exact Std.OrientedCmp.not_lt_of_lt (hz y hy) hyz
    · intro ⟨x, hx, hP, hleast⟩
      rcases List.mem_cons.mp hx with rfl | hx
      · exact hP
      · exact absurd (hz x hx) (hleast z List.mem_cons_self)

/-- The last entry is the one with no greater entry. -/
theorem Ascends.getLast?_any_iff {xs : List α} (h : Ascends cmp xs) {P : α → Bool} :
    xs.getLast?.any P = true ↔ ∃ x ∈ xs, P x = true ∧ ∀ y ∈ xs, cmp x y ≠ .lt := by
  obtain rfl | ⟨zs, z, rfl⟩ := xs.eq_nil_or_concat'
  · simp
  have hz : ∀ y ∈ zs, cmp y z = .lt := fun y hy =>
    (List.pairwise_append.mp h).2.2 y hy z (List.mem_singleton_self z)
  rw [List.getLast?_concat, Option.any_some]
  constructor
  · intro hP
    refine ⟨z, List.mem_append_right _ (List.mem_singleton_self z), hP, fun y hy hzy => ?_⟩
    rcases List.mem_append.mp hy with hy | hy
    · exact Std.OrientedCmp.not_lt_of_lt (hz y hy) hzy
    · exact ne_of_lt_cmp hzy (List.mem_singleton.mp hy).symm
  · intro ⟨x, hx, hP, hgreatest⟩
    rcases List.mem_append.mp hx with hx | hx
    · exact absurd (hz x hx) (hgreatest z (List.mem_append_right _ (List.mem_singleton_self z)))
    · rwa [List.mem_singleton.mp hx] at hP

end

end IntervalAutomata
