import IntervalAutomata.Interval.Segments
import IntervalAutomata.Proofs.Interval

/-! # Segments

Between two neighbouring points no interval starts or stops. So a segment lies inside an interval or
outside it, and its first symbol tells which; and every symbol that some interval covers lies in a
segment. -/

namespace IntervalAutomata

theorem mem_boundaries {intervals : List Interval} {p : Nat} :
    p ∈ boundaries intervals ↔ ∃ i ∈ intervals, p = i.min ∨ p = i.max + 1 := by
  simp [boundaries]

theorem ascends_boundaries (intervals : List Interval) :
    (boundaries intervals).Pairwise (· < ·) :=
  (ascends_ascending _).imp fun h => Nat.compare_eq_lt.mp h

section

variable {points : List Nat} {cut : Interval}

theorem min_mem_of_mem_segments (hcut : cut ∈ segments points) : cut.min ∈ points := by
  fun_induction segments points with
  | case1 p q points ih =>
    rcases List.mem_cons.mp hcut with rfl | hcut
    · exact List.mem_cons_self
    · exact List.mem_cons_of_mem _ (ih hcut)
  | case2 => cases hcut

theorem head_le_of_mem_segments {p : Nat} (h : (p :: points).Pairwise (· < ·))
    (hcut : cut ∈ segments (p :: points)) : p ≤ cut.min := by
  rcases List.mem_cons.mp (min_mem_of_mem_segments hcut) with hp | hp
  · exact Nat.le_of_eq hp.symm
  · exact Nat.le_of_lt ((List.pairwise_cons.mp h).1 _ hp)

/-- No point lies inside a segment. -/
theorem between_of_mem_segments (h : points.Pairwise (· < ·)) (hcut : cut ∈ segments points) :
    cut.min ≤ cut.max ∧ cut.max + 1 ∈ points ∧ ∀ p ∈ points, p ≤ cut.min ∨ cut.max < p := by
  fun_induction segments points with
  | case1 p q points ih =>
    obtain ⟨hp, hrest⟩ := List.pairwise_cons.mp h
    obtain ⟨hq, -⟩ := List.pairwise_cons.mp hrest
    have hpq := hp q (by simp)
    rcases List.mem_cons.mp hcut with rfl | hlater
    · refine ⟨by dsimp only; omega, by simp [Nat.sub_add_cancel (Nat.one_le_of_lt hpq)], ?_⟩
      intro r hr
      dsimp only
      rcases List.mem_cons.mp hr with rfl | hr
      · exact .inl (Nat.le_refl _)
      · rcases List.mem_cons.mp hr with rfl | hr
        · exact .inr (by omega)
        · have := hq r hr
          exact .inr (by omega)
    · obtain ⟨hle, hmax, hbetween⟩ := ih hrest hlater
      refine ⟨hle, List.mem_cons_of_mem _ hmax, fun r hr => ?_⟩
      rcases List.mem_cons.mp hr with rfl | hr
      · have := head_le_of_mem_segments hrest hlater
        exact .inl (by omega)
      · exact hbetween r hr
  | case2 => cases hcut

theorem apart_segments (h : points.Pairwise (· < ·)) :
    (segments points).Pairwise fun i j => i.max < j.min := by
  fun_induction segments points with
  | case1 p q points ih =>
    obtain ⟨hp, hrest⟩ := List.pairwise_cons.mp h
    refine List.pairwise_cons.mpr ⟨fun cut hcut => ?_, ih hrest⟩
    have hpq := hp q (by simp)
    have := head_le_of_mem_segments hrest hcut
    dsimp only
    omega
  | case2 => exact List.Pairwise.nil

theorem exists_segment {c p q : Nat} (h : points.Pairwise (· < ·)) (hp : p ∈ points)
    (hpc : p ≤ c) (hq : q ∈ points) (hcq : c < q) :
    ∃ cut ∈ segments points, cut.contains c = true := by
  fun_induction segments points generalizing p with
  | case1 p₁ p₂ points ih =>
    obtain ⟨hlt, hrest⟩ := List.pairwise_cons.mp h
    by_cases hc : c < p₂
    · refine ⟨⟨p₁, p₂ - 1⟩, by simp, ?_⟩
      have hp₁ : p₁ ≤ p := by
        rcases List.mem_cons.mp hp with rfl | hp
        · exact Nat.le_refl _
        · exact Nat.le_of_lt (hlt p hp)
      rw [Interval.contains_iff]
      dsimp only
      omega
    · have hq' : q ∈ p₂ :: points := by
        rcases List.mem_cons.mp hq with rfl | hq
        · have := hlt p₂ (by simp)
          omega
        · exact hq
      obtain ⟨cut, hcut, hcontains⟩ := ih hrest List.mem_cons_self (Nat.le_of_not_lt hc) hq'
      exact ⟨cut, List.mem_cons_of_mem _ hcut, hcontains⟩
  | case2 points hshort =>
    match points, hshort with
    | [], _ => cases hp
    | [r], _ =>
      rw [List.mem_singleton.mp hp] at hpc
      rw [List.mem_singleton.mp hq] at hcq
      omega
    | r :: s :: rest, hshort => exact (hshort r s rest rfl).elim

end

section

variable {intervals : List Interval} {cut : Interval}

/-- An interval holds all of a segment or none of it. -/
theorem contains_iff_contains_min (hcut : cut ∈ segments (boundaries intervals)) {i : Interval}
    (hi : i ∈ intervals) {c : Nat} (hc : cut.contains c = true) :
    i.contains c = true ↔ i.contains cut.min = true := by
  obtain ⟨hle, -, hbetween⟩ := between_of_mem_segments (ascends_boundaries intervals) hcut
  have hmin := hbetween _ (mem_boundaries.mpr ⟨i, hi, .inl rfl⟩)
  have hmax := hbetween _ (mem_boundaries.mpr ⟨i, hi, .inr rfl⟩)
  rw [Interval.contains_iff] at hc ⊢
  rw [Interval.contains_iff]
  omega

theorem exists_segment_of_contains {i : Interval} (hi : i ∈ intervals) {c : Nat}
    (hc : i.contains c = true) : ∃ cut ∈ segments (boundaries intervals), cut.contains c = true := by
  rw [Interval.contains_iff] at hc
  exact exists_segment (ascends_boundaries intervals) (mem_boundaries.mpr ⟨i, hi, .inl rfl⟩) hc.1
    (mem_boundaries.mpr ⟨i, hi, .inr rfl⟩) (Nat.lt_succ_of_le hc.2)

theorem proper_of_mem_segments (hp : ∀ i ∈ intervals, i.Proper)
    (hcut : cut ∈ segments (boundaries intervals)) : cut.Proper := by
  obtain ⟨hle, hmax, -⟩ := between_of_mem_segments (ascends_boundaries intervals) hcut
  refine ⟨hle, ?_⟩
  obtain ⟨i, hi, hend⟩ := mem_boundaries.mp hmax
  have := hp i hi
  have h₁ := this.min_le_max
  have h₂ := this.max_le
  omega

end

end IntervalAutomata
