import IntervalAutomata.Automaton.Assembly
import IntervalAutomata.Proofs.BreadthFirst
import IntervalAutomata.Proofs.Interval

/-! # Joining transitions

Joining extends an entry over the ones that continue it. The symbols that lead to a target stay the
same as long as entries with one target start in ascending order. A list without overlaps stays
without overlaps, and then no entry is left that another one with its target continues (`Joined`). -/

namespace IntervalAutomata

/-- Some entry covers `c` and leads to `q`. -/
def Moves (l : List Transition) (c q : Nat) : Prop :=
  ∃ t ∈ l, t.interval.contains c = true ∧ t.target = q

/-- Between two entries with one target there is a symbol that neither covers. -/
def Joined (l : List Transition) : Prop :=
  l.Pairwise fun s t => s.target = t.target → s.interval.max + 1 < t.interval.min

/-- Entries with one target start in ascending order. -/
def Rising (l : List Transition) : Prop :=
  l.Pairwise fun s t => s.target = t.target → s.interval.min ≤ t.interval.min

theorem moves_cons {t : Transition} {l : List Transition} {c q : Nat} :
    Moves (t :: l) c q ↔ t.interval.contains c = true ∧ t.target = q ∨ Moves l c q :=
  List.exists_mem_cons_iff ..

theorem moves_congr {l l' : List Transition} {c q : Nat} (h : ∀ t, t ∈ l ↔ t ∈ l') :
    Moves l c q ↔ Moves l' c q :=
  exists_congr fun t => and_congr_left' (h t)

theorem Apart.rising {l : List Transition} (h : Apart l) (hp : ∀ t ∈ l, t.interval.Proper) :
    Rising l :=
  h.imp_of_mem fun {s t} hs _ hst _ => by have := (hp s hs).min_le_max; omega

/-- Two intervals that touch cover together what the joint one covers. -/
theorem contains_join {i j : Interval} {c : Nat} (h : i.touches j = true) (hmin : i.min ≤ j.min) :
    (⟨i.min, Nat.max i.max j.max⟩ : Interval).contains c = true ↔
      i.contains c = true ∨ j.contains c = true := by
  simp only [Interval.touches, Interval.overlaps, Interval.abuts, Bool.or_eq_true, Bool.and_eq_true,
    decide_eq_true_eq, beq_iff_eq] at h
  simp only [Interval.contains_iff, Nat.max_eq_max]
  omega

section

variable {last : Transition} {l : List Transition} {c q : Nat}

theorem moves_coalesceFrom (h : Rising (last :: l)) :
    Moves (coalesceFrom last l) c q ↔ Moves (last :: l) c q := by
  fun_induction coalesceFrom last l with
  | case1 => rfl
  | case2 last t rest hjoin ih =>
    obtain ⟨htarget, htouch⟩ := Bool.and_eq_true_iff.mp hjoin
    obtain ⟨hlast, hrest⟩ := List.pairwise_cons.mp h
    have hmin := hlast t (by simp) (of_decide_eq_true htarget).symm
    rw [ih (List.pairwise_cons.mpr ⟨fun u hu => hlast u (by simp [hu]),
      (List.pairwise_cons.mp hrest).2⟩), moves_cons, moves_cons, moves_cons,
      contains_join htouch hmin, of_decide_eq_true htarget]
    tauto
  | case3 last t rest hjoin ih =>
    rw [moves_cons, moves_cons, ih (List.pairwise_cons.mp h).2]

theorem apart_join {t : Transition} (h : Apart (last :: t :: l)) :
    Apart (⟨⟨last.interval.min, Nat.max last.interval.max t.interval.max⟩, last.target⟩ :: l) := by
  obtain ⟨hlast, hrest⟩ := List.pairwise_cons.mp h
  obtain ⟨ht, hl⟩ := List.pairwise_cons.mp hrest
  refine List.pairwise_cons.mpr ⟨fun u hu => ?_, hl⟩
  have h₁ := hlast u (by simp [hu])
  have h₂ := ht u hu
  dsimp only
  rw [Nat.max_eq_max]
  omega

theorem proper_join {t : Transition} (hp : ∀ u ∈ last :: t :: l, u.interval.Proper) :
    ∀ u ∈ (⟨⟨last.interval.min, Nat.max last.interval.max t.interval.max⟩, last.target⟩ :
      Transition) :: l, u.interval.Proper := by
  intro u hu
  rcases List.mem_cons.mp hu with rfl | hu
  · obtain ⟨h₁, h₂⟩ := hp last (by simp)
    obtain ⟨h₃, h₄⟩ := hp t (by simp)
    constructor <;> dsimp only <;> rw [Nat.max_eq_max] <;> omega
  · exact hp u (by simp [hu])

theorem proper_coalesceFrom (hp : ∀ t ∈ last :: l, t.interval.Proper) :
    ∀ u ∈ coalesceFrom last l, u.interval.Proper := by
  fun_induction coalesceFrom last l with
  | case1 => exact hp
  | case2 last t rest _ ih => exact ih (proper_join hp)
  | case3 last t rest _ ih =>
    intro u hu
    rcases List.mem_cons.mp hu with rfl | hu
    · exact hp u (by simp)
    · exact ih (fun v hv => hp v (by simp [hv])) u hu

/-- The first entry starts like the given one, and all others start behind it. -/
theorem start_of_mem_coalesceFrom (h : Apart (last :: l)) (hp : ∀ t ∈ last :: l, t.interval.Proper) :
    ∀ u ∈ coalesceFrom last l, u.interval.min = last.interval.min ∧ u.target = last.target ∨
      last.interval.max < u.interval.min := by
  fun_induction coalesceFrom last l with
  | case1 => simp
  | case2 last t rest _ ih =>
    intro u hu
    rcases ih (apart_join h) (proper_join hp) u hu with hstart | hlater
    · exact .inl hstart
    · exact .inr (Nat.lt_of_le_of_lt (Nat.le_max_left _ _) hlater)
  | case3 last t rest _ ih =>
    obtain ⟨hlast, hrest⟩ := List.pairwise_cons.mp h
    intro u hu
    rcases List.mem_cons.mp hu with rfl | hu
    · exact .inl ⟨rfl, rfl⟩
    · have hlt := hlast t (by simp)
      have hproper := (hp t (by simp)).min_le_max
      rcases ih hrest (fun v hv => hp v (by simp [hv])) u hu with ⟨hstart, -⟩ | hlater <;>
        exact .inr (by omega)

theorem apart_coalesceFrom (h : Apart (last :: l)) (hp : ∀ t ∈ last :: l, t.interval.Proper) :
    Apart (coalesceFrom last l) := by
  fun_induction coalesceFrom last l with
  | case1 => exact h
  | case2 last t rest _ ih => exact ih (apart_join h) (proper_join hp)
  | case3 last t rest _ ih =>
    obtain ⟨hlast, hrest⟩ := List.pairwise_cons.mp h
    have hp' : ∀ v ∈ t :: rest, v.interval.Proper := fun v hv => hp v (List.mem_cons_of_mem _ hv)
    refine List.pairwise_cons.mpr ⟨fun u hu => ?_, ih hrest hp'⟩
    have hlt := hlast t (by simp)
    have hproper := (hp t (by simp)).min_le_max
    rcases start_of_mem_coalesceFrom hrest hp' u hu with ⟨hstart, -⟩ | hlater <;> omega

theorem joined_coalesceFrom (h : Apart (last :: l)) (hp : ∀ t ∈ last :: l, t.interval.Proper) :
    Joined (coalesceFrom last l) := by
  fun_induction coalesceFrom last l with
  | case1 => exact List.pairwise_singleton _ _
  | case2 last t rest _ ih => exact ih (apart_join h) (proper_join hp)
  | case3 last t rest hjoin ih =>
    obtain ⟨hlast, hrest⟩ := List.pairwise_cons.mp h
    have hp' : ∀ v ∈ t :: rest, v.interval.Proper := fun v hv => hp v (List.mem_cons_of_mem _ hv)
    refine List.pairwise_cons.mpr ⟨fun u hu htarget => ?_, ih hrest hp'⟩
    have hlt := hlast t (by simp)
    obtain ⟨hproper, hmax⟩ := hp t (by simp)
    rcases start_of_mem_coalesceFrom hrest hp' u hu with ⟨hstart, hsame⟩ | hlater
    · -- the next entry would have been joined if it continued this one
      by_contra hle
      refine hjoin (Bool.and_eq_true_iff.mpr ⟨decide_eq_true (htarget.trans hsame).symm, ?_⟩)
      have habuts : last.interval.abuts t.interval = true := by
        simp only [Interval.abuts, Bool.and_eq_true, decide_eq_true_eq, beq_iff_eq]
        omega
      rw [Interval.touches, habuts, Bool.or_true]
    · omega

theorem joinAbuttingFrom_eq (h : Apart (last :: l))
    (hends : ∀ t ∈ last :: l, t.interval.min ≤ t.interval.max) :
    joinAbuttingFrom last l = coalesceFrom last l := by
  induction l generalizing last with
  | nil => rfl
  | cons t l ih =>
    obtain ⟨hlast, hrest⟩ := List.pairwise_cons.mp h
    have hlt := hlast t List.mem_cons_self
    have ht := hends t (by simp)
    have hmax : Nat.max last.interval.max t.interval.max = t.interval.max := Nat.max_eq_right (by omega)
    have htouches : last.interval.touches t.interval = last.interval.abuts t.interval := by
      rw [Interval.touches, Interval.overlaps_eq_false_iff.mpr (.inr hlt), Bool.false_or]
    rw [joinAbuttingFrom, coalesceFrom, htouches, hmax,
      ih hrest fun u hu => hends u (List.mem_cons_of_mem _ hu)]
    split
    · have hjoin := apart_join h
      rw [hmax] at hjoin
      refine ih hjoin (List.forall_mem_cons.mpr ⟨?_, fun u hu => hends u (by simp [hu])⟩)
      have hstart := hends last List.mem_cons_self
      exact show last.interval.min ≤ t.interval.max by omega
    · rfl

/-- Reading the targets of joined entries makes the same numbers known in the same order. -/
theorem inOrder_coalesceFrom (m : Nat) (last : Transition) (l : List Transition) :
    (InOrder m ((coalesceFrom last l).map (·.target)) ↔
        InOrder m (last.target :: l.map (·.target))) ∧
      grow m ((coalesceFrom last l).map (·.target)) = grow m (last.target :: l.map (·.target)) := by
  fun_induction coalesceFrom last l generalizing m with
  | case1 => exact ⟨Iff.rfl, rfl⟩
  | case2 last t rest hjoin ih =>
    have htarget := of_decide_eq_true (Bool.and_eq_true_iff.mp hjoin).1
    have hmax : Nat.max (Nat.max m (last.target + 1)) (last.target + 1) =
        Nat.max m (last.target + 1) := Nat.max_eq_left (Nat.le_max_right _ _)
    obtain ⟨horder, hgrow⟩ := ih m
    rw [horder, hgrow]
    simp only [List.map_cons, InOrder, grow_cons, htarget, hmax]
    refine ⟨⟨fun h => ⟨h.1, ?_, h.2⟩, fun h => ⟨h.1, h.2.2⟩⟩, trivial⟩
    exact Nat.le_trans (Nat.le_succ _) (Nat.le_max_right _ _)
  | case3 last t rest _ ih =>
    obtain ⟨horder, hgrow⟩ := ih (Nat.max m (last.target + 1))
    simp only [List.map_cons, InOrder, grow_cons] at horder hgrow ⊢
    exact ⟨and_congr_right' horder, hgrow⟩

end

/-! ## Lists that are joined -/

section

variable {t t' : Transition} {l l' : List Transition}

private theorem head_le_of_moves (ha : Apart (t :: l)) (hp : ∀ u ∈ t :: l, u.interval.Proper)
    (hp' : t'.interval.Proper) (h : ∀ c q, Moves (t' :: l') c q → Moves (t :: l) c q) :
    t.interval.min ≤ t'.interval.min := by
  obtain ⟨u, hu, hc, -⟩ := h _ _ ⟨t', by simp, hp'.contains_min, rfl⟩
  rw [Interval.contains_iff] at hc
  rcases List.mem_cons.mp hu with rfl | hu
  · exact hc.1
  · have := (List.pairwise_cons.mp ha).1 u hu
    have := (hp t (by simp)).min_le_max
    omega

private theorem head_max_le_of_moves (hj : Joined (t :: l)) (hmin : t.interval.min = t'.interval.min)
    (htarget : t.target = t'.target) (hp : t.interval.Proper)
    (h : ∀ c q, Moves (t' :: l') c q → Moves (t :: l) c q) :
    t'.interval.max ≤ t.interval.max := by
  by_contra hlt
  have hle := hp.min_le_max
  -- the first symbol behind `t` has the same target, but nothing continues `t`
  have hnext : t'.interval.contains (t.interval.max + 1) = true := by
    rw [Interval.contains_iff]
    omega
  obtain ⟨u, hu, hc, hut⟩ := h _ _ ⟨t', by simp, hnext, rfl⟩
  rw [Interval.contains_iff] at hc
  rcases List.mem_cons.mp hu with rfl | hu
  · omega
  · have := (List.pairwise_cons.mp hj).1 u hu (htarget.trans hut.symm)
    omega

private theorem moves_tail_of_moves (ha : Apart (t :: l))
    (h : ∀ c q, Moves (t :: l) c q → Moves (t :: l') c q) (c q : Nat) (hm : Moves l c q) :
    Moves l' c q := by
  obtain ⟨u, hu, hc, hq⟩ := hm
  rcases moves_cons.mp (h c q ⟨u, List.mem_cons_of_mem _ hu, hc, hq⟩) with ⟨htc, -⟩ | hm
  · have := (List.pairwise_cons.mp ha).1 u hu
    rw [Interval.contains_iff] at hc htc
    omega
  · exact hm

/-- Joined transitions are determined by the moves they make. -/
theorem Joined.eq_of_moves (ha : Apart l) (hj : Joined l) (hp : ∀ t ∈ l, t.interval.Proper)
    (ha' : Apart l') (hj' : Joined l') (hp' : ∀ t ∈ l', t.interval.Proper)
    (h : ∀ c q, Moves l c q ↔ Moves l' c q) : l = l' := by
  have hmoves : ∀ {l : List Transition} {t}, (∀ u ∈ t :: l, u.interval.Proper) →
      Moves (t :: l) t.interval.min t.target := fun hp =>
    ⟨_, List.mem_cons_self, (hp _ List.mem_cons_self).contains_min, rfl⟩
  induction l generalizing l' with
  | nil =>
    cases l' with
    | nil => rfl
    | cons t' l' => exact absurd ((h _ _).mpr (hmoves hp')) (by simp [Moves])
  | cons t l ih =>
    cases l' with
    | nil => exact absurd ((h _ _).mp (hmoves hp)) (by simp [Moves])
    | cons t' l' =>
      have hmin := Nat.le_antisymm
        (head_le_of_moves ha hp (hp' t' (by simp)) fun c q => (h c q).mpr)
        (head_le_of_moves ha' hp' (hp t (by simp)) fun c q => (h c q).mp)
      have htarget : t.target = t'.target := by
        obtain ⟨u, hu, hc, hut⟩ := (h _ _).mp (hmoves hp)
        rw [← hut, ha'.unique hu List.mem_cons_self hc]
        rw [hmin]
        exact (hp' t' (by simp)).contains_min
      have hmax := Nat.le_antisymm
        (head_max_le_of_moves hj' hmin.symm htarget.symm (hp' t' (by simp)) fun c q => (h c q).mp)
        (head_max_le_of_moves hj hmin htarget (hp t (by simp)) fun c q => (h c q).mpr)
      have heq : t = t' := by
        obtain ⟨⟨_, _⟩, _⟩ := t
        obtain ⟨⟨_, _⟩, _⟩ := t'
        dsimp only at hmin hmax htarget
        rw [hmin, hmax, htarget]
      subst heq
      rw [ih (List.pairwise_cons.mp ha).2 (List.pairwise_cons.mp hj).2
        (fun u hu => hp u (by simp [hu])) (List.pairwise_cons.mp ha').2 (List.pairwise_cons.mp hj').2
        (fun u hu => hp' u (by simp [hu])) fun c q =>
        ⟨moves_tail_of_moves ha (fun c q => (h c q).mp) c q,
          moves_tail_of_moves ha' (fun c q => (h c q).mpr) c q⟩]

end

/-! ## Whole lists -/

section

variable {l : List Transition} {c q : Nat}

theorem moves_coalesce (h : Rising l) : Moves (coalesce l) c q ↔ Moves l c q := by
  cases l with
  | nil => rfl
  | cons t l => exact moves_coalesceFrom h

theorem proper_coalesce (hp : ∀ t ∈ l, t.interval.Proper) :
    ∀ t ∈ coalesce l, t.interval.Proper := by
  cases l with
  | nil => exact hp
  | cons t l => exact proper_coalesceFrom hp

theorem apart_coalesce (h : Apart l) (hp : ∀ t ∈ l, t.interval.Proper) : Apart (coalesce l) := by
  cases l with
  | nil => exact h
  | cons t l => exact apart_coalesceFrom h hp

theorem joined_coalesce (h : Apart l) (hp : ∀ t ∈ l, t.interval.Proper) : Joined (coalesce l) := by
  cases l with
  | nil => exact List.Pairwise.nil
  | cons t l => exact joined_coalesceFrom h hp

theorem inOrder_coalesce (m : Nat) (l : List Transition) :
    (InOrder m ((coalesce l).map (·.target)) ↔ InOrder m (l.map (·.target))) ∧
      grow m ((coalesce l).map (·.target)) = grow m (l.map (·.target)) := by
  cases l with
  | nil => exact ⟨Iff.rfl, rfl⟩
  | cons t l => exact inOrder_coalesceFrom m t l

/-- **Segments are joined alike by both**: without overlaps entries can only touch, and the later one
ends last. -/
theorem joinAbutting_eq_coalesce (h : Apart l) (hends : ∀ t ∈ l, t.interval.min ≤ t.interval.max) :
    joinAbutting l = coalesce l := by
  cases l with
  | nil => rfl
  | cons t l => exact joinAbuttingFrom_eq h hends

end

end IntervalAutomata
