import IntervalAutomata.Proofs.Exploration
import Mathlib.Data.Nat.Count
import Mathlib.Order.Lattice

/-! # Breadth-first numbers

Numbers are breadth-first when they come up in order: reading the rows one after the other and each
row from left to right, a target either is known or is the next number, and every row is known before
it is read. Explorations number that way. Such numbers are rigid: a renaming that takes rows to rows
and fixes the first number fixes all of them, so the graph alone determines its breadth-first form. And
they survive the loss of numbers from which only lost ones can be reached. -/

namespace IntervalAutomata

/-- How many numbers are known after some targets, when those below `m` were known before. -/
def grow (m : Nat) (targets : List Nat) : Nat := targets.foldl (fun m t => Nat.max m (t + 1)) m

/-- No target skips a number. -/
def InOrder : Nat → List Nat → Prop
  | _, [] => True
  | m, t :: ts => t ≤ m ∧ InOrder (Nat.max m (t + 1)) ts

/-- How many numbers are known after `k` rows. -/
def known (rows : Nat → List Nat) : Nat → Nat
  | 0 => 1
  | k + 1 => grow (known rows k) (rows k)

structure BreadthFirst (rows : Nat → List Nat) (n : Nat) : Prop where
  inOrder : ∀ k < n, InOrder (known rows k) (rows k)
  ahead : ∀ k < n, k < known rows k
  known_eq : known rows n = n

@[simp] theorem grow_nil (m : Nat) : grow m [] = m := rfl

@[simp] theorem grow_cons (m t : Nat) (ts : List Nat) :
    grow m (t :: ts) = grow (Nat.max m (t + 1)) ts := rfl

theorem known_congr {rows rows' : Nat → List Nat} (k : Nat) (h : ∀ i < k, rows i = rows' i) :
    known rows k = known rows' k := by
  induction k with
  | zero => rfl
  | succ k ih =>
    rw [known, known, ih fun i hi => h i (Nat.lt_succ_of_lt hi), h k (Nat.lt_succ_self k)]

/-- Rows that make the same numbers known, in order again, are breadth-first again. -/
theorem BreadthFirst.transfer {rows rows' : Nat → List Nat} {n : Nat} (h : BreadthFirst rows n)
    (hrows : ∀ k < n, ∀ m, InOrder m (rows k) →
      InOrder m (rows' k) ∧ grow m (rows' k) = grow m (rows k)) : BreadthFirst rows' n := by
  have hknown : ∀ k ≤ n, known rows' k = known rows k := by
    intro k hk
    induction k with
    | zero => rfl
    | succ k ih =>
      rw [known, known, ih (Nat.le_of_succ_le hk), (hrows k hk _ (h.inOrder k hk)).2]
  refine ⟨fun k hk => ?_, fun k hk => ?_, ?_⟩
  · rw [hknown k (Nat.le_of_lt hk)]
    exact (hrows k hk _ (h.inOrder k hk)).1
  · rw [hknown k (Nat.le_of_lt hk)]
    exact h.ahead k hk
  · rw [hknown n (Nat.le_refl n), h.known_eq]

/-! ## Order without rounds -/

/-- New numbers below a target stand before it. -/
theorem inOrder_iff {m : Nat} {ts : List Nat} : InOrder m ts ↔
    ∀ before t after, ts = before ++ t :: after → ∀ u < t, m ≤ u → u ∈ before := by
  induction ts generalizing m with
  | nil => simp [InOrder]
  | cons t ts ih =>
    rw [InOrder, ih]
    constructor
    · intro ⟨ht, hts⟩ before t' after heq u hu hmu
      cases before with
      | nil =>
        obtain ⟨rfl, -⟩ := List.cons.inj heq
        omega
      | cons s before =>
        obtain ⟨rfl, htail⟩ := List.cons.inj heq
        rcases Nat.lt_or_ge t u with htu | hut
        · exact List.mem_cons_of_mem _ (hts before t' after htail u hu (Nat.max_le.mpr ⟨hmu, htu⟩))
        · exact List.mem_cons.mpr (.inl (by omega))
    · intro h
      refine ⟨Nat.le_of_not_lt fun hlt => ?_, fun before t' after heq u hu hmu => ?_⟩
      · exact List.not_mem_nil (h [] t ts rfl m hlt (Nat.le_refl m))
      · obtain ⟨hmu, htu⟩ := Nat.max_le.mp hmu
        have hmem := h (t :: before) t' after (by rw [heq, List.cons_append]) u hu hmu
        exact (List.mem_cons.mp hmem).resolve_left (Nat.ne_of_gt htu)

theorem grow_le_iff {m k : Nat} {ts : List Nat} : grow m ts ≤ k ↔ m ≤ k ∧ ∀ t ∈ ts, t < k := by
  induction ts generalizing m with
  | nil => simp
  | cons t ts ih =>
    rw [grow_cons, ih, List.forall_mem_cons, Nat.max_eq_max, Nat.max_le, and_assoc]
    rfl

/-- How many numbers are known does not depend on the order in which they came up. -/
theorem grow_congr (m : Nat) {ts ts' : List Nat} (h : ∀ t, t ∈ ts ↔ t ∈ ts') :
    grow m ts = grow m ts' := by
  have hle : ∀ k, grow m ts ≤ k ↔ grow m ts' ≤ k := fun k => by simp only [grow_le_iff, h]
  exact Nat.le_antisymm ((hle _).mpr (Nat.le_refl _)) ((hle _).mp (Nat.le_refl _))

theorem known_mono {rows : Nat → List Nat} {j k : Nat} (h : j ≤ k) : known rows j ≤ known rows k := by
  induction k, h using Nat.le_induction with
  | base => exact Nat.le_refl _
  | succ k _ ih => exact ih.trans (grow_le_iff.mp (Nat.le_refl _)).1

theorem BreadthFirst.pos {rows : Nat → List Nat} {n : Nat} (h : BreadthFirst rows n) : 0 < n :=
  h.known_eq ▸ known_mono (Nat.zero_le n)

/-- No target lies beyond the rows. -/
theorem BreadthFirst.target_lt {rows : Nat → List Nat} {n k t : Nat} (h : BreadthFirst rows n)
    (hk : k < n) (ht : t ∈ rows k) : t < n :=
  calc t < known rows (k + 1) := (grow_le_iff.mp (Nat.le_refl _)).2 t ht
    _ ≤ known rows n := known_mono hk
    _ = n := h.known_eq

/-! ## Leaving numbers out -/

section

variable {keep : Nat → Prop} [DecidablePred keep]

/-- The targets that are kept, each as its place among the numbers that are kept. -/
def remaining (keep : Nat → Prop) [DecidablePred keep] (targets : List Nat) : List Nat :=
  targets.filterMap fun t => if keep t then some (Nat.count keep t) else none

theorem remaining_eq_nil {ts : List Nat} (h : ∀ t ∈ ts, ¬ keep t) : remaining keep ts = [] :=
  List.filterMap_eq_nil_iff.mpr fun t ht => if_neg (h t ht)

theorem inOrder_remaining (keep : Nat → Prop) [DecidablePred keep] {m : Nat} {ts : List Nat}
    (h : InOrder m ts) :
    InOrder (Nat.count keep m) (remaining keep ts) ∧
      grow (Nat.count keep m) (remaining keep ts) = Nat.count keep (grow m ts) := by
  induction ts generalizing m with
  | nil => exact ⟨trivial, rfl⟩
  | cons t ts ih =>
    obtain ⟨ht, h⟩ := h
    obtain ⟨horder, hgrow⟩ := ih h
    have hcount : Nat.count keep (Nat.max m (t + 1)) =
        Nat.max (Nat.count keep m) (Nat.count keep (t + 1)) := (Nat.count_monotone keep).map_max
    rw [hcount] at horder hgrow
    rw [grow_cons]
    by_cases hkeep : keep t
    · rw [Nat.count_succ_eq_succ_count hkeep] at horder hgrow
      have hcons : remaining keep (t :: ts) = Nat.count keep t :: remaining keep ts :=
        List.filterMap_cons_some (if_pos hkeep)
      rw [hcons, grow_cons]
      exact ⟨⟨Nat.count_monotone keep ht, horder⟩, hgrow⟩
    · -- a target that is dropped adds nothing, whether it is new or not
      rw [Nat.count_succ_eq_count hkeep, Nat.max_eq_max,
        Nat.max_eq_left (Nat.count_monotone keep ht)] at horder hgrow
      have hcons : remaining keep (t :: ts) = remaining keep ts :=
        List.filterMap_cons_none (if_neg hkeep)
      rw [hcons]
      exact ⟨horder, hgrow⟩

/-- Every place belongs to a number that is kept. -/
theorem exists_count_eq {n j : Nat} (h : j < Nat.count keep n) :
    ∃ k < n, keep k ∧ Nat.count keep k = j := by
  induction n with
  | zero => exact absurd h (Nat.not_lt_zero j)
  | succ n ih =>
    by_cases hj : j < Nat.count keep n
    · obtain ⟨k, hk, hkept⟩ := ih hj
      exact ⟨k, Nat.lt_succ_of_lt hk, hkept⟩
    · by_cases hkeep : keep n
      · rw [Nat.count_succ_eq_succ_count hkeep] at h
        exact ⟨n, Nat.lt_succ_self n, hkeep, by omega⟩
      · rw [Nat.count_succ_eq_count hkeep] at h
        exact absurd h hj

/-- **Numbers that are kept stay breadth-first** when the ones left out lead nowhere else. -/
theorem BreadthFirst.remaining {rows rows' : Nat → List Nat} {n : Nat} (h : BreadthFirst rows n)
    (hzero : keep 0) (hclosed : ∀ k < n, ¬ keep k → ∀ t ∈ rows k, ¬ keep t)
    (hrows : ∀ k < n, keep k → rows' (Nat.count keep k) = remaining keep (rows k)) :
    BreadthFirst rows' (Nat.count keep n) := by
  have hknown : ∀ k ≤ n, known rows' (Nat.count keep k) = Nat.count keep (known rows k) := by
    intro k hk
    induction k with
    | zero =>
      show 1 = Nat.count keep 1
      rw [Nat.count_one, if_pos hzero]
    | succ k ih =>
      have hgrow := (inOrder_remaining keep (h.inOrder k hk)).2
      rw [known, ← hgrow, ← ih (Nat.le_of_succ_le hk)]
      by_cases hkeep : keep k
      · rw [Nat.count_succ_eq_succ_count hkeep, known, hrows k hk hkeep]
      · rw [Nat.count_succ_eq_count hkeep, remaining_eq_nil (hclosed k hk hkeep), grow_nil]
  refine ⟨fun j hj => ?_, fun j hj => ?_, ?_⟩
  · obtain ⟨k, hk, hkeep, rfl⟩ := exists_count_eq hj
    rw [hknown k (Nat.le_of_lt hk), hrows k hk hkeep]
    exact (inOrder_remaining keep (h.inOrder k hk)).1
  · obtain ⟨k, hk, hkeep, rfl⟩ := exists_count_eq hj
    rw [hknown k (Nat.le_of_lt hk)]
    exact Nat.count_strict_mono hkeep (h.ahead k hk)
  · rw [hknown n (Nat.le_refl n), h.known_eq]

end

/-! ## Rigidity -/

section

variable {f : Nat → Nat} {inside : Nat → Prop}

private theorem fixed_after_row (hinj : ∀ p q, inside p → inside q → f p = f q → p = q)
    {m : Nat} {ts : List Nat} (hts : ∀ t ∈ ts, inside t) (h : InOrder m ts)
    (h' : InOrder m (ts.map f)) (hm : ∀ q < m, inside q ∧ f q = q) :
    grow m (ts.map f) = grow m ts ∧ ∀ q < grow m ts, inside q ∧ f q = q := by
  induction ts generalizing m with
  | nil => exact ⟨rfl, hm⟩
  | cons t ts ih =>
    obtain ⟨ht, h⟩ := h
    obtain ⟨hft, h'⟩ := h'
    have hfix : f t = t := by
      rcases Nat.lt_or_eq_of_le ht with hlt | rfl
      · exact (hm t hlt).2
      · -- the next number cannot go to a known one, which is fixed already
        by_contra hne
        have hlt : f t < t := Nat.lt_of_le_of_ne hft hne
        exact hne (hinj _ _ (hm _ hlt).1 (hts t (by simp)) (hm _ hlt).2)
    rw [hfix] at h'
    rw [List.map_cons, grow_cons, grow_cons, hfix]
    refine ih (fun u hu => hts u (by simp [hu])) h h' fun q hq => ?_
    rcases Nat.lt_or_ge q m with hlt | hge
    · exact hm q hlt
    · have hqt : q = t := by
        rcases Nat.le_total m (t + 1) with hle | hle
        · rw [Nat.max_eq_max, Nat.max_eq_right hle] at hq; omega
        · rw [Nat.max_eq_max, Nat.max_eq_left hle] at hq; omega
      rw [hqt]
      exact ⟨hts t (by simp), hfix⟩

/-- A renaming between two breadth-first numberings of one graph changes nothing. -/
theorem BreadthFirst.rigid {rows : Nat → List Nat} {n : Nat} (h : BreadthFirst rows n)
    (rows' : Nat → List Nat) (f : Nat → Nat) (inside : Nat → Prop)
    (hinj : ∀ p q, inside p → inside q → f p = f q → p = q) (hzero : inside 0) (hfzero : f 0 = 0)
    (hclosed : ∀ q, inside q → ∀ t ∈ rows q, inside t)
    (hrows : ∀ q, inside q → rows' (f q) = (rows q).map f)
    (hin : ∀ q, inside q → InOrder (known rows' (f q)) (rows' (f q))) :
    ∀ q < n, inside q ∧ f q = q := by
  have hknown : ∀ k ≤ n, known rows' k = known rows k ∧
      ∀ q < known rows k, inside q ∧ f q = q := by
    intro k
    induction k with
    | zero =>
      intro _
      refine ⟨rfl, fun q hq => ?_⟩
      rw [Nat.lt_one_iff.mp hq]
      exact ⟨hzero, hfzero⟩
    | succ k ih =>
      intro hk
      obtain ⟨heq, hfix⟩ := ih (Nat.le_of_succ_le hk)
      obtain ⟨hinside, hfk⟩ := hfix k (h.ahead k hk)
      have hrow := hrows k hinside
      have horder := hin k hinside
      rw [hfk] at hrow horder
      rw [heq, hrow] at horder
      rw [known, known, heq, hrow]
      exact fixed_after_row hinj (hclosed k hinside) (h.inOrder k hk) horder hfix
  intro q hq
  exact (hknown n (Nat.le_refl n)).2 q (by rw [h.known_eq]; exact hq)

end

/-! ## Explorations -/

namespace Exploration

set_option linter.unusedSectionVars false

variable {α β : Type} {cmp : α → α → Ordering} [Std.TransCmp cmp] [Std.LawfulEqCmp cmp]
variable {e f : Exploration α β cmp} {x : α} {look : α → Row α β}

theorem size_note (h : Indexed e) (x : α) :
    (e.note x).items.size = Nat.max e.items.size ((e.note x).numberOf x + 1) := by
  obtain ⟨hold, hnote⟩ | ⟨-, hitems, hnum⟩ := h.note_cases x
  · rw [hnote]
    exact (Nat.max_eq_left (h.numberOf_lt hold)).symm
  · rw [hnum, hitems, Array.size_push]
    exact (Nat.max_eq_right (Nat.le_succ _)).symm

theorem numberOf_note_le (h : Indexed e) (x : α) : (e.note x).numberOf x ≤ e.items.size := by
  obtain ⟨hold, hnote⟩ | ⟨-, -, hnum⟩ := h.note_cases x
  · rw [hnote]
    exact Nat.le_of_lt (h.numberOf_lt hold)
  · exact Nat.le_of_eq hnum

/-- Items that are noted from left to right get their numbers in order. -/
theorem inOrder_foldl_note (h : Indexed e) (xs : List α) (hf : Indexed f)
    (hgrow : Grows (xs.foldl note e) f) :
    InOrder e.items.size (xs.map f.numberOf) ∧
      grow e.items.size (xs.map f.numberOf) = (xs.foldl note e).items.size := by
  induction xs generalizing e with
  | nil => exact ⟨trivial, rfl⟩
  | cons x xs ih =>
    have hnote := h.note x
    have hx : x ∈ (e.note x).items := h.mem_note.mpr (.inr rfl)
    have hnum : f.numberOf x = (e.note x).numberOf x :=
      ((grows_foldl_note xs (e.note x)).trans hgrow).numberOf_eq hnote hf hx
    obtain ⟨horder, hsize⟩ := ih hnote hgrow
    rw [size_note h x, ← hnum] at horder hsize
    rw [List.map_cons, grow_cons]
    exact ⟨⟨hnum ▸ numberOf_note_le h x, horder⟩, hsize⟩

/-- The targets of row `k`. -/
def rowTargets (e : Exploration α β cmp) (k : Nat) : List Nat :=
  ((e.rows[k]?).map fun row => row.edges.map (·.2)).getD []

structure Ordered (e : Exploration α β cmp) : Prop where
  inOrder : ∀ k < e.rows.size, InOrder (known e.rowTargets k) (e.rowTargets k)
  ahead : ∀ k < e.rows.size, k < known e.rowTargets k
  size_eq : e.items.size = known e.rowTargets e.rows.size

theorem items_start (x : α) : ([x].foldl note (empty : Exploration α β cmp)).items = #[x] := by
  have hempty : Indexed (empty : Exploration α β cmp) := indexed_empty
  have hnot : (empty : Exploration α β cmp).numbers.contains x ≠ true := by
    rw [Ne, hempty.contains_iff]; simp [empty]
  rw [List.foldl_cons, List.foldl_nil, note, if_neg hnot]
  rfl

theorem ordered_start (x : α) : Ordered ([x].foldl note (empty : Exploration α β cmp)) := by
  have hrows : ([x].foldl note (empty : Exploration α β cmp)).rows = #[] := rows_foldl_note _ _
  refine ⟨fun k hk => ?_, fun k hk => ?_, ?_⟩
  · rw [hrows] at hk; exact absurd hk (Nat.not_lt_zero k)
  · rw [hrows] at hk; exact absurd hk (Nat.not_lt_zero k)
  · rw [hrows, items_start]; rfl

theorem Ordered.expand (h : Ordered e) (he : Indexed e) (hnext : e.next? = some x)
    (row : Row α β) : Ordered (e.expand row) := by
  have hlt : e.rows.size < e.items.size := (Array.getElem?_eq_some_iff.mp hnext).1
  have hold : ∀ k < e.rows.size, (e.expand row).rowTargets k = e.rowTargets k := by
    intro k hk
    rw [rowTargets, rows_expand, Array.getElem?_push, if_neg (Nat.ne_of_lt hk)]
    rfl
  have hnew : (e.expand row).rowTargets e.rows.size =
      (row.edges.map (·.2)).map (e.expand row).numberOf := by
    rw [rowTargets, rows_expand, Array.getElem?_push, if_pos rfl]
    simp [numbered, Function.comp_def]
  have hknown : ∀ k ≤ e.rows.size, known (e.expand row).rowTargets k = known e.rowTargets k :=
    fun k hk => known_congr k fun i hi => hold i (Nat.lt_of_lt_of_le hi hk)
  obtain ⟨horder, hsize⟩ := inOrder_foldl_note he (row.edges.map (·.2)) (he.expand row)
    (foldl_note_grows_expand e row)
  rw [h.size_eq] at horder hsize hlt
  have hrows : (e.expand row).rows.size = e.rows.size + 1 := by
    rw [rows_expand, Array.size_push]
  refine ⟨fun k hk => ?_, fun k hk => ?_, ?_⟩
  · rcases Nat.lt_or_eq_of_le (Nat.lt_succ_iff.mp (hrows ▸ hk)) with hk | rfl
    · rw [hknown k (Nat.le_of_lt hk), hold k hk]
      exact h.inOrder k hk
    · rw [hknown _ (Nat.le_refl _), hnew]
      exact horder
  · rcases Nat.lt_or_eq_of_le (Nat.lt_succ_iff.mp (hrows ▸ hk)) with hk | rfl
    · rw [hknown k (Nat.le_of_lt hk)]
      exact h.ahead k hk
    · rw [hknown _ (Nat.le_refl _)]
      exact hlt
  · rw [hrows, known, hknown _ (Nat.le_refl _), hnew, hsize, items_expand]

theorem Ordered.breadthFirst (h : Ordered e) (hrows : e.rows.size = e.items.size) :
    BreadthFirst e.rowTargets e.items.size where
  inOrder k hk := h.inOrder k (hrows ▸ hk)
  ahead k hk := h.ahead k (hrows ▸ hk)
  known_eq := by rw [← hrows]; exact h.size_eq.symm.trans hrows.symm

theorem Complete.rowTargets_eq {starts : List α} (h : Complete look starts e) {i : Nat}
    (hx : e.items[i]? = some x) :
    e.rowTargets i = ((look x).edges.map (·.2)).map e.numberOf := by
  rw [rowTargets, h.row i x hx]
  simp [numbered, Function.comp_def]

/-- Everything that can be reached from `x` has been found, with breadth-first numbers. -/
structure Explored (look : α → Row α β) (x : α) (e : Exploration α β cmp) : Prop
    extends Complete look [x] e where
  head : e.items[0]? = some x
  breadthFirst : BreadthFirst e.rowTargets e.items.size

/-- Items that lead to one another as breadth-first numbers do are found in the order of these. -/
theorem Explored.items_eq_map {node : Nat → α} {rows : Nat → List Nat} {n : Nat}
    (h : Explored look (node 0) e) (hrows : BreadthFirst rows n)
    (hlook : ∀ k < n, (look (node k)).edges.map (·.2) = (rows k).map node)
    (hinj : ∀ j < n, ∀ k < n, node j = node k → j = k) :
    e.items.toList = (List.range n).map node := by
  have hfixed : ∀ k < n, e.items[k]? = some (node k) := by
    intro k hk
    have hrigid := hrows.rigid e.rowTargets (fun k => e.numberOf (node k))
      (fun k => k < n ∧ node k ∈ e.items) ?_
      ⟨hrows.pos, Array.mem_iff_getElem?.mpr ⟨0, h.head⟩⟩ (h.indexed.numberOf_eq h.head) ?_ ?_ ?_ k hk
    · have hitem := h.indexed.getElem?_numberOf hrigid.1.2
      rwa [hrigid.2] at hitem
    · intro p q ⟨hp, hpmem⟩ ⟨hq, hqmem⟩ heq
      have hitem := h.indexed.getElem?_numberOf hpmem
      rw [heq, h.indexed.getElem?_numberOf hqmem] at hitem
      exact hinj p hp q hq (Option.some.inj hitem).symm
    · intro p ⟨hp, hpmem⟩ t ht
      have hedge : node t ∈ (look (node p)).edges.map (·.2) :=
        hlook p hp ▸ List.mem_map_of_mem ht
      obtain ⟨d, hd, hdt⟩ := List.mem_map.mp hedge
      exact ⟨hrows.target_lt hp ht, hdt ▸ h.mem_of_edge hpmem hd⟩
    · intro p ⟨hp, hpmem⟩
      rw [h.rowTargets_eq (h.indexed.getElem?_numberOf hpmem), hlook p hp, List.map_map]
      rfl
    · intro p ⟨_, hpmem⟩
      exact h.breadthFirst.inOrder _ (h.indexed.numberOf_lt hpmem)
  have hreached : ∀ x, Reaches look [node 0] x → ∃ k < n, x = node k := by
    intro x hx
    induction hx with
    | start hx => exact ⟨0, hrows.pos, List.mem_singleton.mp hx⟩
    | edge _ hd ih =>
      obtain ⟨k, hk, rfl⟩ := ih
      have htarget := hlook k hk ▸ List.mem_map_of_mem hd
      obtain ⟨t, ht, heq⟩ := List.mem_map.mp htarget
      exact ⟨t, hrows.target_lt hk ht, heq.symm⟩
  have hsize : e.items.size ≤ n := by
    by_contra hgt
    have hn := Array.getElem?_eq_getElem (Nat.lt_of_not_le hgt)
    obtain ⟨k, hk, heq⟩ :=
      hreached _ ((h.mem_items _).mp (Array.mem_iff_getElem?.mpr ⟨n, hn⟩))
    exact Nat.ne_of_lt hk (h.indexed.index_unique (hfixed k hk) (heq ▸ hn))
  apply List.ext_getElem?
  intro k
  rw [Array.getElem?_toList, List.getElem?_map]
  by_cases hk : k < n
  · rw [hfixed k hk, List.getElem?_range hk]
    rfl
  · rw [Array.getElem?_eq_none (by omega), List.getElem?_eq_none (by simpa using hk)]
    rfl

/-- Numbers that are breadth-first already are found in order. -/
theorem Explored.items_eq_range {look : Nat → Row Nat β} {e : Exploration Nat β compare} {n : Nat}
    (h : Explored look 0 e) (hlook : BreadthFirst (fun q => (look q).edges.map (·.2)) n) :
    e.items.toList = List.range n := by
  have hitems : e.items.toList = (List.range n).map id :=
    Explored.items_eq_map h hlook (fun _ _ => (List.map_id _).symm) fun _ _ _ _ heq => heq
  rwa [List.map_id] at hitems

end Exploration

open Exploration

section

variable {α β : Type} {cmp : α → α → Ordering} [Std.TransCmp cmp] [Std.LawfulEqCmp cmp]
variable {look : α → Row α β} {x : α} {bound : Nat} {e : Exploration α β cmp}

theorem explore?_ordered (h : explore? cmp bound look [x] = some e) : Ordered e := by
  refine (run_preserves (fun e => Indexed e ∧ Ordered e) ?_ ⟨?_, ordered_start x⟩ h).2
  · intro e y ⟨he, ho⟩ hnext _
    exact ⟨he.expand _, ho.expand he hnext _⟩
  · exact indexed_empty.foldl_note [x]

/-- The start is number zero. -/
theorem explore?_head (h : explore? cmp bound look [x] = some e) : e.items[0]? = some x := by
  refine run_preserves (fun e => e.items[0]? = some x) ?_ ?_ h
  · intro e y hx _ _
    exact grows_expand e _ _ _ hx
  · rw [items_start]
    rfl

theorem exploreAll_explored (hbound : Bounded look [x] bound) :
    Explored look x (exploreAll cmp bound look [x]) := by
  have hsome := exploreAll_eq_some cmp hbound
  have hcomplete : Complete look [x] (exploreAll cmp bound look [x]) := exploreAll_complete hbound
  exact ⟨hcomplete, explore?_head hsome, (explore?_ordered hsome).breadthFirst hcomplete.rows_size⟩

end

end IntervalAutomata
