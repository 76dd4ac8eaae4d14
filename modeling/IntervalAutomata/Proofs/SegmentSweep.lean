import IntervalAutomata.Determinize
import IntervalAutomata.Proofs.Running
import IntervalAutomata.Proofs.Segments
import Mathlib.Data.List.TakeWhile

/-! # Sweeping over segments

When the sweep comes to a point, the transitions that begin there or later are waiting in order, and
those that began before are active, unless they have ended (`Sweeping`). No transition begins inside a
segment. So at each segment the active transitions are those that cover its first symbol, and what the
sweep finds there are the successors on that symbol. -/

namespace IntervalAutomata.Automaton

variable {a : Automaton} {all active pending : List Transition} {set points : List Nat} {p q c : Nat}

/-- What the sweep knows at the first of `points`, the points that are left. -/
structure Sweeping (all active pending : List Transition) (points : List Nat) : Prop where
  rising : pending.Pairwise fun s t => s.interval.min ≤ t.interval.min
  mem_all : ∀ t, t ∈ active ∨ t ∈ pending → t ∈ all
  starts : ∀ t ∈ pending, t.interval.min ∈ points
  begun : ∀ t ∈ active, ∀ p ∈ points, t.interval.min < p
  kept : ∀ t ∈ all, t ∈ active ∨ t ∈ pending ∨ ∀ p ∈ points, t.interval.max < p

/-- Where entries start in ascending order, those that have started come first. -/
theorem mem_dropWhile_started (h : pending.Pairwise fun s t => s.interval.min ≤ t.interval.min)
    {t : Transition} :
    t ∈ pending.dropWhile (fun t => t.interval.min ≤ p) ↔ t ∈ pending ∧ p < t.interval.min := by
  induction pending with
  | nil => simp
  | cons s pending ih =>
    obtain ⟨hs, hpending⟩ := List.pairwise_cons.mp h
    rw [List.dropWhile_cons]
    split
    · rename_i hle
      have hle : s.interval.min ≤ p := of_decide_eq_true hle
      rw [ih hpending, List.mem_cons, and_congr_left_iff]
      intro hlt
      refine (or_iff_right ?_).symm
      rintro rfl
      omega
    · rename_i hgt
      have hgt : p < s.interval.min := Nat.lt_of_not_le fun hle => hgt (decide_eq_true hle)
      refine (and_iff_left_of_imp fun ht => ?_).symm
      rcases List.mem_cons.mp ht with rfl | ht
      · exact hgt
      · exact Nat.lt_of_lt_of_le hgt (hs t ht)

theorem mem_takeWhile_started (h : pending.Pairwise fun s t => s.interval.min ≤ t.interval.min)
    {t : Transition} :
    t ∈ pending.takeWhile (fun t => t.interval.min ≤ p) ↔ t ∈ pending ∧ t.interval.min ≤ p := by
  have hsplit : t ∈ pending ↔ t ∈ pending.takeWhile (fun t => t.interval.min ≤ p) ∨
      t ∈ pending.dropWhile (fun t => t.interval.min ≤ p) := by
    rw [← List.mem_append, List.takeWhile_append_dropWhile]
  constructor
  · intro ht
    have hle := List.mem_takeWhile_imp ht
    exact ⟨hsplit.mpr (.inl ht), of_decide_eq_true hle⟩
  · intro ⟨ht, hle⟩
    refine (hsplit.mp ht).resolve_right fun hdrop => ?_
    exact Nat.not_lt_of_le hle ((mem_dropWhile_started h).mp hdrop).2

/-! ## One segment -/

/-- The transitions that are active at `p`, when `active` were before. -/
def activeAt (p : Nat) (active pending : List Transition) : List Transition :=
  active.filter (fun t => p ≤ t.interval.max) ++ pending.takeWhile fun t => t.interval.min ≤ p

theorem Sweeping.mem_activeAt (h : Sweeping all active pending (p :: points))
    (hpoints : (p :: points).Pairwise (· < ·)) (hends : ∀ t ∈ all, t.interval.min ≤ t.interval.max)
    {t : Transition} : t ∈ activeAt p active pending ↔ t ∈ all ∧ t.interval.contains p = true := by
  rw [activeAt, List.mem_append, List.mem_filter, decide_eq_true_eq, mem_takeWhile_started h.rising,
    Interval.contains_iff]
  constructor
  · rintro (⟨ht, hmax⟩ | ⟨ht, hmin⟩)
    · exact ⟨h.mem_all t (.inl ht), Nat.le_of_lt (h.begun t ht p List.mem_cons_self), hmax⟩
    · -- it begins at a point that is left, and that can only be this one
      have hmem := h.mem_all t (.inr ht)
      have hle : p ≤ t.interval.min := by
        rcases List.mem_cons.mp (h.starts t ht) with hp | hp
        · exact Nat.le_of_eq hp.symm
        · exact Nat.le_of_lt ((List.pairwise_cons.mp hpoints).1 _ hp)
      exact ⟨hmem, hmin, hle.trans (hends t hmem)⟩
  · intro ⟨ht, hmin, hmax⟩
    rcases h.kept t ht with hactive | hpending | hended
    · exact .inl ⟨hactive, hmax⟩
    · exact .inr ⟨hpending, hmin⟩
    · exact absurd (hended p List.mem_cons_self) (Nat.not_lt_of_le hmax)

theorem Sweeping.next (h : Sweeping all active pending (p :: points))
    (hpoints : (p :: points).Pairwise (· < ·)) (hends : ∀ t ∈ all, t.interval.min ≤ t.interval.max) :
    Sweeping all (activeAt p active pending)
      (pending.dropWhile fun t => t.interval.min ≤ p) points := by
  have hlater := (List.pairwise_cons.mp hpoints).1
  have hmem : ∀ {t}, t ∈ activeAt p active pending ↔ t ∈ all ∧ t.interval.contains p = true :=
    h.mem_activeAt hpoints hends
  refine ⟨h.rising.sublist (List.dropWhile_sublist _), fun t ht => ?_, fun t ht => ?_,
    fun t ht r hr => ?_, fun t ht => ?_⟩
  · rcases ht with ht | ht
    · exact (hmem.mp ht).1
    · exact h.mem_all t (.inr ((mem_dropWhile_started h.rising).mp ht).1)
  · obtain ⟨ht, hlt⟩ := (mem_dropWhile_started h.rising).mp ht
    exact (List.mem_cons.mp (h.starts t ht)).resolve_left (Nat.ne_of_gt hlt)
  · have hcontains := Interval.contains_iff.mp (hmem.mp ht).2
    exact Nat.lt_of_le_of_lt hcontains.1 (hlater r hr)
  · rcases h.kept t ht with hactive | hpending | hended
    · by_cases hmax : p ≤ t.interval.max
      · exact .inl (List.mem_append_left _ (List.mem_filter.mpr ⟨hactive, decide_eq_true hmax⟩))
      · exact .inr (.inr fun r hr => (Nat.lt_of_not_le hmax).trans (hlater r hr))
    · by_cases hmin : t.interval.min ≤ p
      · exact .inl (List.mem_append_right _ ((mem_takeWhile_started h.rising).mpr ⟨hpending, hmin⟩))
      · exact .inr (.inl ((mem_dropWhile_started h.rising).mpr ⟨hpending, Nat.lt_of_not_le hmin⟩))
    · exact .inr (.inr fun r hr => hended r (List.mem_cons_of_mem _ hr))

/-! ## All segments -/

/-- Each segment that something covers, with what its first symbol leads to. -/
def segmentMoves (a : Automaton) (set : List Nat) (cuts : List Interval) : List (Interval × List Nat) :=
  (cuts.map fun cut => (cut, a.successors set cut.min)).filter fun entry => !entry.2.isEmpty

theorem segmentMoves_cons {cut : Interval} {cuts : List Interval} : a.segmentMoves set (cut :: cuts) =
    if (a.successors set cut.min).isEmpty then a.segmentMoves set cuts
    else (cut, a.successors set cut.min) :: a.segmentMoves set cuts := by
  rw [segmentMoves, List.map_cons, List.filter_cons]
  cases (a.successors set cut.min).isEmpty <;> rfl

theorem Sweeping.sweepFrom_eq (h : Sweeping (set.flatMap a.transitions) active pending points)
    (hpoints : points.Pairwise (· < ·))
    (hends : ∀ t ∈ set.flatMap a.transitions, t.interval.min ≤ t.interval.max) :
    sweepFrom active pending (segments points) = a.segmentMoves set (segments points) := by
  fun_induction segments points generalizing active pending with
  | case1 p q points ih =>
    have htargets : ascending compare ((activeAt p active pending).map (·.target)) =
        a.successors set p := by
      refine ascending_congr fun r => ?_
      rw [mem_moves, List.mem_map]
      simp only [h.mem_activeAt hpoints hends, List.mem_flatMap, Step]
      constructor
      · rintro ⟨t, ⟨⟨s, hs, ht⟩, hc⟩, rfl⟩
        exact ⟨s, hs, t, ht, hc, rfl⟩
      · rintro ⟨s, hs, t, ht, hc, rfl⟩
        exact ⟨t, ⟨⟨s, hs, ht⟩, hc⟩, rfl⟩
    have hempty : (activeAt p active pending).isEmpty = (a.successors set p).isEmpty := by
      rw [← htargets]
      cases activeAt p active pending with
      | nil => rfl
      | cons t active =>
        refine (List.isEmpty_eq_false_iff.mpr ?_).symm
        exact List.ne_nil_of_mem (mem_ascending.mpr (List.mem_map_of_mem List.mem_cons_self))
    rw [segmentMoves_cons, ← ih (h.next hpoints hends) (List.pairwise_cons.mp hpoints).2]
    dsimp only
    rw [← hempty, ← htargets]
    rfl
  | case2 => rfl

/-- **The sweep finds what a look at each segment's first symbol finds**, unless some interval has its
ends inverted. -/
theorem sweep_eq (hends : ∀ q ∈ set, ∀ t ∈ a.transitions q, t.interval.min ≤ t.interval.max) :
    a.sweep set =
      a.segmentMoves set (segments (boundaries ((set.flatMap a.transitions).map (·.interval)))) := by
  have hpoints : boundaries ((sorted Transition.order (set.flatMap a.transitions)).map (·.interval)) =
      boundaries ((set.flatMap a.transitions).map (·.interval)) :=
    ascending_congr fun p => by simp only [List.mem_flatMap, List.mem_map, mem_sorted]
  have hstart : Sweeping (set.flatMap a.transitions) []
      (sorted Transition.order (set.flatMap a.transitions))
      (boundaries ((set.flatMap a.transitions).map (·.interval))) := by
    refine ⟨(pairwise_sorted _).imp fun {s t} hst => ?_, fun t ht => ?_, fun t ht => ?_,
      fun t ht => absurd ht List.not_mem_nil, fun t ht => .inr (.inl (mem_sorted.mpr ht))⟩
    · rcases hst with hlt | rfl
      · have hlt := Transition.order_lt_iff_numbers.mp hlt
        omega
      · exact Nat.le_refl _
    · exact mem_sorted.mp (ht.resolve_left List.not_mem_nil)
    · exact mem_boundaries.mpr ⟨_, List.mem_map_of_mem (mem_sorted.mp ht), .inl rfl⟩
  rw [sweep, hpoints]
  refine hstart.sweepFrom_eq (ascends_boundaries _) fun t ht => ?_
  obtain ⟨q, hq, ht⟩ := List.mem_flatMap.mp ht
  exact hends q hq t ht

end IntervalAutomata.Automaton
