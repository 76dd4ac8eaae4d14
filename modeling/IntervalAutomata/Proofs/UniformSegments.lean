import IntervalAutomata.Proofs.Segments
import Mathlib.Algebra.Group.Nat.Defs
import Mathlib.Data.List.Chain

/-! # Segments are as long as they can be

The segments of some intervals follow one another without gaps, from the least lower end to the greatest
upper end, and every interval holds all of a segment or nothing of it. At every point between two
segments some interval starts or has just stopped, and holds only one of the two; so no coarser cut
treats the intervals alike. Points may lie one beyond the numbers of 32 bits, the ends of segments never
do. -/

namespace IntervalAutomata

/-- All of `cut` is in `i`. -/
def Interval.LiesIn (cut i : Interval) : Prop := ∀ c, cut.contains c = true → i.contains c = true

/-- Nothing of `cut` is in `i`. -/
def Interval.LiesOutside (cut i : Interval) : Prop := ∀ c, cut.contains c = true → i.contains c = false

/-- Segments of points in 64 bits, their ends cut down to 32 bits. -/
def wordSegments : List UInt64 → List Interval
  | p :: q :: points => ⟨p.toUInt32.toNat, (q - 1).toUInt32.toNat⟩ :: wordSegments (q :: points)
  | _ => []

section

variable {points : List Nat}

theorem min_head?_segments {q : Nat} : ∀ cut ∈ (segments (q :: points)).head?, cut.min = q := by
  cases points with
  | nil => nofun
  | cons r points =>
    intro cut hcut
    rw [← Option.some.inj hcut]

/-- Where a segment ends the next one begins. -/
theorem contiguous_segments (h : points.Pairwise (· < ·)) :
    (segments points).IsChain fun l r => l.max + 1 = r.min := by
  fun_induction segments points with
  | case1 p q points ih =>
    obtain ⟨hp, hrest⟩ := List.pairwise_cons.mp h
    refine List.isChain_cons.mpr ⟨fun cut hcut => ?_, ih hrest⟩
    rw [min_head?_segments cut hcut]
    exact Nat.sub_add_cancel (Nat.one_le_of_lt (hp q List.mem_cons_self))
  | case2 => exact .nil

theorem wordSegments_map (h : points.Pairwise (· < ·)) (hle : ∀ p ∈ points, p ≤ 2 ^ 32) :
    wordSegments (points.map .ofNat) = segments points := by
  fun_induction segments points with
  | case1 p q points ih =>
    obtain ⟨hp, hrest⟩ := List.pairwise_cons.mp h
    obtain ⟨-, hle'⟩ := List.forall_mem_cons.mp hle
    have hpq := hp q List.mem_cons_self
    have hq := hle' q List.mem_cons_self
    have hmin : (UInt64.ofNat p).toUInt32.toNat = p := by
      rw [UInt64.toNat_toUInt32, UInt64.toNat_ofNat']
      omega
    have hmax : (UInt64.ofNat q - 1).toUInt32.toNat = q - 1 := by
      have hone : (1 : UInt64).toNat = 1 := rfl
      have hword : (UInt64.ofNat q).toNat = q := by
        rw [UInt64.toNat_ofNat']
        omega
      rw [UInt64.toNat_toUInt32, UInt64.toNat_sub_of_le, hword, hone]
      · omega
      · rw [UInt64.le_iff_toNat_le, hword, hone]
        omega
    rw [List.map_cons, List.map_cons, wordSegments, ← List.map_cons, ih hrest hle', hmin, hmax]
  | case2 points hshort =>
    rcases points with _ | ⟨p, _ | ⟨q, rest⟩⟩
    · rfl
    · rfl
    · exact (hshort p q rest rfl).elim

end

section

variable {intervals : List Interval} {cut : Interval} {c : Nat}

theorem boundaries_le (h : ∀ i ∈ intervals, i.min ≤ i.max ∧ i.max < 2 ^ 32) :
    ∀ p ∈ boundaries intervals, p ≤ 2 ^ 32 := by
  intro p hp
  obtain ⟨i, hi, hpi⟩ := mem_boundaries.mp hp
  have := h i hi
  omega

/-- A segment lies in the intervals that hold its first symbol. -/
theorem liesIn_iff (hcut : cut ∈ segments (boundaries intervals)) {i : Interval} (hi : i ∈ intervals) :
    cut.LiesIn i ↔ i.contains cut.min = true := by
  refine ⟨fun h => h _ ?_, fun h c hc => (contains_iff_contains_min hcut hi hc).mpr h⟩
  obtain ⟨hle, -⟩ := between_of_mem_segments (ascends_boundaries intervals) hcut
  exact Interval.contains_iff.mpr ⟨Nat.le_refl _, hle⟩

/-- It lies outside all others. -/
theorem liesIn_or_liesOutside (hcut : cut ∈ segments (boundaries intervals)) {i : Interval}
    (hi : i ∈ intervals) : cut.LiesIn i ∨ cut.LiesOutside i := by
  rw [liesIn_iff hcut hi]
  refine or_iff_not_imp_left.mpr fun hmin c hc => Bool.eq_false_iff.mpr fun h => hmin ?_
  exact (contains_iff_contains_min hcut hi hc).mp h

/-- The segments reach from the least lower end to the greatest upper end. -/
theorem exists_segment_iff (h : ∀ i ∈ intervals, i.min ≤ i.max) :
    (∃ cut ∈ segments (boundaries intervals), cut.contains c = true) ↔
      ∃ lo ∈ (intervals.map (·.min)).min?, ∃ hi ∈ (intervals.map (·.max)).max?, lo ≤ c ∧ c ≤ hi := by
  have hascends := ascends_boundaries intervals
  constructor
  · intro ⟨cut, hcut, hc⟩
    obtain ⟨-, hmax, -⟩ := between_of_mem_segments hascends hcut
    obtain ⟨i, hi, hstart⟩ := mem_boundaries.mp (min_mem_of_mem_segments hcut)
    obtain ⟨j, hj, hstop⟩ := mem_boundaries.mp hmax
    obtain ⟨lo, hlo⟩ := Option.isSome_iff_exists.mp
      (List.isSome_min?_of_mem (List.mem_map_of_mem (f := (·.min)) hi))
    obtain ⟨hi', hhi⟩ := Option.isSome_iff_exists.mp
      (List.isSome_max?_of_mem (List.mem_map_of_mem (f := (·.max)) hj))
    have hleast := (List.min?_eq_some_iff.mp hlo).2 _ (List.mem_map_of_mem hi)
    have hgreatest := (List.max?_eq_some_iff.mp hhi).2 _ (List.mem_map_of_mem hj)
    have := h i hi
    have := h j hj
    rw [Interval.contains_iff] at hc
    exact ⟨lo, hlo, hi', hhi, by omega, by omega⟩
  · intro ⟨lo, hlo, hi, hhi, hloc, hchi⟩
    obtain ⟨i, hi, rfl⟩ := List.mem_map.mp (List.min?_eq_some_iff.mp hlo).1
    obtain ⟨j, hj, rfl⟩ := List.mem_map.mp (List.max?_eq_some_iff.mp hhi).1
    exact exists_segment hascends (mem_boundaries.mpr ⟨i, hi, .inl rfl⟩) hloc
      (mem_boundaries.mpr ⟨j, hj, .inr rfl⟩) (Nat.lt_succ_of_le hchi)

/-- Where two segments meet some interval starts or has stopped. -/
theorem exists_liesIn_one (h : ∀ i ∈ intervals, i.min ≤ i.max) {l r : Interval}
    (hl : l ∈ segments (boundaries intervals)) (hr : r ∈ segments (boundaries intervals))
    (hlr : l.max + 1 = r.min) : ∃ i ∈ intervals, ¬ (l.LiesIn i ↔ r.LiesIn i) := by
  obtain ⟨hle, -⟩ := between_of_mem_segments (ascends_boundaries intervals) hl
  obtain ⟨i, hi, hpoint⟩ := mem_boundaries.mp (min_mem_of_mem_segments hr)
  have hproper := h i hi
  refine ⟨i, hi, ?_⟩
  -- the last symbol of `l` and the first of `r` are neighbours
  have hlast := contains_iff_contains_min hl hi (Interval.contains_iff.mpr ⟨hle, Nat.le_refl _⟩)
  rw [liesIn_iff hl hi, liesIn_iff hr hi, ← hlast, Interval.contains_iff, Interval.contains_iff]
  omega

/-- **The segments are the coarsest cut that treats all intervals alike.** They ascend, one begins where
the last one ends, and together they reach from the least lower end to the greatest upper end. No end is
lost in 32 bits. Each interval holds all of a segment or nothing of it, and some interval tells two
neighbours apart. -/
theorem segments_coarsest (h : ∀ i ∈ intervals, i.min ≤ i.max ∧ i.max < 2 ^ 32) :
    (∀ cut ∈ segments (boundaries intervals), cut.min ≤ cut.max ∧ cut.max < 2 ^ 32) ∧
    wordSegments ((boundaries intervals).map .ofNat) = segments (boundaries intervals) ∧
    (segments (boundaries intervals)).Pairwise (fun l r => l.max < r.min) ∧
    (segments (boundaries intervals)).IsChain (fun l r => l.max + 1 = r.min) ∧
    (intervals = [] → segments (boundaries intervals) = []) ∧
    (∀ c, (∃ cut ∈ segments (boundaries intervals), cut.contains c = true) ↔
      ∃ lo ∈ (intervals.map (·.min)).min?, ∃ hi ∈ (intervals.map (·.max)).max?, lo ≤ c ∧ c ≤ hi) ∧
    (∀ cut ∈ segments (boundaries intervals), ∀ i ∈ intervals, cut.LiesIn i ∨ cut.LiesOutside i) ∧
    (segments (boundaries intervals)).IsChain fun l r => ∃ i ∈ intervals, ¬ (l.LiesIn i ↔ r.LiesIn i) := by
  have hascends := ascends_boundaries intervals
  have hproper : ∀ i ∈ intervals, i.min ≤ i.max := fun i hi => (h i hi).1
  have hcontiguous := contiguous_segments hascends
  refine ⟨fun cut hcut => ?_, wordSegments_map hascends (boundaries_le h), apart_segments hascends,
    hcontiguous, ?_, fun c => exists_segment_iff hproper,
    fun cut hcut i hi => liesIn_or_liesOutside hcut hi,
    hcontiguous.imp_of_mem_imp fun l r hl hr => exists_liesIn_one hproper hl hr⟩
  · obtain ⟨hle, hmax, -⟩ := between_of_mem_segments hascends hcut
    exact ⟨hle, boundaries_le h _ hmax⟩
  · rintro rfl
    rfl

end

/-- Intervals that overlap, one of them twice, one that follows at once and ends with the last number of
32 bits, and one that stands alone. -/
def crossing : List Interval := [⟨10, 20⟩, ⟨15, 30⟩, ⟨31, 0xFFFFFFFF⟩, ⟨15, 30⟩, ⟨0, 0⟩]

theorem segments_crossing :
    (∀ i ∈ crossing, i.min ≤ i.max ∧ i.max < 2 ^ 32) ∧
    segments (boundaries crossing) =
      [⟨0, 0⟩, ⟨1, 9⟩, ⟨10, 14⟩, ⟨15, 20⟩, ⟨21, 30⟩, ⟨31, 0xFFFFFFFF⟩] ∧
    wordSegments ((boundaries crossing).map .ofNat) = segments (boundaries crossing) ∧
    (∃ cut ∈ segments (boundaries crossing), cut.contains 7 = true) ∧
    ∃ i ∈ crossing, ¬ (Interval.LiesIn ⟨21, 30⟩ i ↔ Interval.LiesIn ⟨31, 0xFFFFFFFF⟩ i) := by
  have h : ∀ i ∈ crossing, i.min ≤ i.max ∧ i.max < 2 ^ 32 := by decide
  have hcuts : segments (boundaries crossing) =
      [⟨0, 0⟩, ⟨1, 9⟩, ⟨10, 14⟩, ⟨15, 20⟩, ⟨21, 30⟩, ⟨31, 0xFFFFFFFF⟩] := by decide
  obtain ⟨-, hwords, -, -, -, hcover, -, hapart⟩ := segments_coarsest h
  refine ⟨h, hcuts, hwords, (hcover 7).mpr ⟨0, by decide, 0xFFFFFFFF, by decide, by decide⟩, ?_⟩
  rw [hcuts, List.isChain_iff_getElem] at hapart
  exact hapart 4 (by decide)

end IntervalAutomata
