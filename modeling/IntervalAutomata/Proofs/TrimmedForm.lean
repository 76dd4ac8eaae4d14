import IntervalAutomata.Proofs.Trim
import Mathlib.Data.Set.Function

/-! # Trimming is exact

The forward sweep numbers reachable states breadth first. What cannot reach an accepting state leads to
nothing that can, so dropping it leaves breadth-first numbers, and sorting the renumbered transitions
again only swaps entries with equal intervals. Trimmed states therefore come in the order in which a
sweep finds them, all of them live, and a second trim has nothing to drop or to move. -/

namespace IntervalAutomata

/-! ## Places in a filtered list -/

section

variable {α : Type} {p : α → Bool} {xs : List α} {k : Nat} {x : α}

/-- The entry at `k` passes the filter. -/
def Stays (p : α → Bool) (xs : List α) (k : Nat) : Prop := xs[k]?.any p = true

instance : DecidablePred (Stays p xs) := fun k => inferInstanceAs (Decidable (xs[k]?.any p = true))

theorem stays_iff (hx : xs[k]? = some x) : Stays p xs k ↔ p x = true := by
  rw [Stays, hx, Option.any_some]

theorem count_stays_cons (y : α) (k : Nat) : Nat.count (Stays p (y :: xs)) (k + 1) =
    Nat.count (Stays p xs) k + if p y = true then 1 else 0 :=
  Nat.count_succ' _ k

/-- An entry that stays goes to its place among those that do. -/
theorem getElem?_filter (hx : xs[k]? = some x) (hp : p x = true) :
    (xs.filter p)[Nat.count (Stays p xs) k]? = some x := by
  induction xs generalizing k with
  | nil => cases hx
  | cons y ys ih =>
    cases k with
    | zero =>
      obtain rfl := Option.some.inj hx
      rw [List.filter_cons_of_pos hp]
      rfl
    | succ k =>
      rw [count_stays_cons]
      by_cases hy : p y = true
      · rw [List.filter_cons_of_pos hy, if_pos hy, List.getElem?_cons_succ]
        exact ih hx
      · rw [List.filter_cons_of_neg hy, if_neg hy]
        exact ih hx

theorem length_filter_eq_count : (xs.filter p).length = Nat.count (Stays p xs) xs.length := by
  induction xs with
  | nil => rfl
  | cons y ys ih =>
    rw [List.length_cons, count_stays_cons, ← ih]
    by_cases hy : p y = true
    · rw [List.filter_cons_of_pos hy, if_pos hy, List.length_cons]
    · rw [List.filter_cons_of_neg hy, if_neg hy, Nat.add_zero]

end

namespace Automaton

open Exploration

variable {a : Automaton} {i j k p q : Nat}

/-! ## Breadth-first numbers of the useful states -/

/-- The exploration behind `reachable`. -/
def forwardSweep (a : Automaton) : Exploration Nat Unit compare :=
  exploreAll compare a.size (fun q => .plain (a.targets q)) [a.initial]

theorem Valid.explored_forwardSweep (ha : a.Valid) :
    Explored (fun q => .plain (a.targets q)) a.initial a.forwardSweep :=
  exploreAll_explored ha.bounded_targets

theorem getElem?_reachable (k : Nat) : a.reachable[k]? = a.forwardSweep.items[k]? :=
  Array.getElem?_toList

/-- Which of the numbers that the sweep gives stand for live states. -/
abbrev Kept (a : Automaton) : Nat → Prop := Stays a.isLive a.reachable

theorem Valid.kept_iff (ha : a.Valid) (hq : a.forwardSweep.items[k]? = some q) :
    a.Kept k ↔ a.Live q :=
  (stays_iff ((getElem?_reachable k).trans hq)).trans ha.live_iff

theorem Valid.kept_numberOf (ha : a.Valid) (hq : q ∈ a.forwardSweep.items) :
    a.Kept (a.forwardSweep.numberOf q) ↔ a.Live q :=
  ha.kept_iff (ha.explored_forwardSweep.indexed.getElem?_numberOf hq)

theorem Valid.getElem?_useful (ha : a.Valid) (hq : a.forwardSweep.items[k]? = some q)
    (hlive : a.Live q) : a.useful[Nat.count a.Kept k]? = some q :=
  getElem?_filter ((getElem?_reachable k).trans hq) (ha.live_iff.mpr hlive)

theorem length_useful : a.useful.length = Nat.count a.Kept a.forwardSweep.items.size :=
  length_filter_eq_count

theorem Valid.nodup_useful (ha : a.Valid) : a.useful.Nodup := ha.nodup_reachable.filter _

/-- A state that the sweep finds goes to the place of its number, or nowhere if it is not live. -/
theorem Valid.places_useful (ha : a.Valid) (hq : q ∈ a.forwardSweep.items) :
    (places a.useful a.size).getD q none =
      if a.Kept (a.forwardSweep.numberOf q) then
        some (Nat.count a.Kept (a.forwardSweep.numberOf q))
      else none := by
  have hitem := ha.explored_forwardSweep.indexed.getElem?_numberOf hq
  by_cases hlive : a.Live q
  · rw [if_pos ((ha.kept_numberOf hq).mpr hlive)]
    exact (places_eq_some_iff ha.nodup_useful).mpr ⟨hlive.lt, ha.getElem?_useful hitem hlive⟩
  · rw [if_neg (mt (ha.kept_numberOf hq).mp hlive), Option.eq_none_iff_forall_ne_some]
    intro place hplace
    have hmem := List.mem_of_getElem? ((places_eq_some_iff ha.nodup_useful).mp hplace).2
    exact hlive (ha.mem_useful.mp hmem).2

theorem Valid.rowTargets_forwardSweep (ha : a.Valid) (hq : a.forwardSweep.items[k]? = some q) :
    a.forwardSweep.rowTargets k = (a.targets q).map a.forwardSweep.numberOf := by
  rw [ha.explored_forwardSweep.rowTargets_eq hq]
  simp [Row.plain, Function.comp_def]

theorem Valid.mem_forwardSweep_of_target (ha : a.Valid) (hp : p ∈ a.forwardSweep.items)
    (hq : q ∈ a.targets p) : q ∈ a.forwardSweep.items :=
  ha.explored_forwardSweep.mem_of_edge (d := ((), q)) hp (mem_edges_plain.mpr hq)

/-- The name that a trimmed state had. -/
def origin (a : Automaton) (i : Nat) : Nat := a.useful.getD i a.initial

theorem origin_eq (h : a.useful[i]? = some q) : a.origin i = q := by
  rw [origin, List.getD_eq_getElem?_getD, h, Option.getD_some]

theorem getElem?_useful_origin (hi : i < a.useful.length) : a.useful[i]? = some (a.origin i) := by
  rw [origin_eq (List.getElem?_eq_getElem hi), List.getElem?_eq_getElem hi]

/-- The transitions that stay, renumbered, before they are sorted again. -/
def moved (a : Automaton) (p : Nat) : List Transition :=
  (a.transitions p).filterMap fun t =>
    ((places a.useful a.size).getD t.target none).map fun place => ⟨t.interval, place⟩

theorem climbs_moved (ha : a.Valid) (p : Nat) : (a.moved p).Pairwise fun s t =>
    Interval.order s.interval t.interval = .lt ∨ s.interval = t.interval := by
  refine (ha.ascends p).filterMap _ fun s t hst s' hs' t' ht' => ?_
  obtain ⟨_, -, rfl⟩ := Option.map_eq_some_iff.mp hs'
  obtain ⟨_, -, rfl⟩ := Option.map_eq_some_iff.mp ht'
  exact (Transition.order_lt_iff.mp hst).imp_right And.left

theorem Valid.targets_moved (ha : a.Valid) (hq : a.forwardSweep.items[k]? = some q) :
    (a.moved q).map (·.target) = remaining a.Kept (a.forwardSweep.rowTargets k) := by
  rw [ha.rowTargets_forwardSweep hq, targets, List.map_map, remaining, List.filterMap_map, moved,
    List.map_filterMap]
  refine List.filterMap_congr fun t ht => ?_
  have hmem := ha.mem_forwardSweep_of_target (Array.mem_iff_getElem?.mpr ⟨k, hq⟩)
    (List.mem_map_of_mem ht)
  rw [Option.map_map]
  exact (congrFun Option.map_id _).trans (ha.places_useful hmem)

theorem Valid.breadthFirst_retain_useful (ha : a.Valid) (hlive : a.Live a.initial) :
    BreadthFirst (a.retain a.useful).targets (a.retain a.useful).size := by
  have hexplored := ha.explored_forwardSweep
  have hmoved : BreadthFirst (fun j => (a.moved (a.origin j)).map (·.target))
      (Nat.count a.Kept a.forwardSweep.items.size) := by
    refine hexplored.breadthFirst.remaining ?_ (fun k hk hkept t ht hkept' => ?_) fun k hk hkept => ?_
    · exact (ha.kept_iff hexplored.head).mpr hlive
    · have hitem := Array.getElem?_eq_getElem hk
      rw [ha.rowTargets_forwardSweep hitem] at ht
      obtain ⟨q, hq, rfl⟩ := List.mem_map.mp ht
      have hmem := ha.mem_forwardSweep_of_target (Array.mem_iff_getElem?.mpr ⟨k, hitem⟩) hq
      obtain ⟨c, hs⟩ := (mem_targets_iff ha).mp hq
      have hq := (ha.kept_numberOf hmem).mp hkept'
      exact hkept ((ha.kept_iff hitem).mpr (hq.of_path (.cons hs (.nil q))))
    · have hitem := Array.getElem?_eq_getElem hk
      rw [origin_eq (ha.getElem?_useful hitem ((ha.kept_iff hitem).mp hkept))]
      exact ha.targets_moved hitem
  rw [size_retain, length_useful]
  refine hmoved.transfer fun j hj m horder => ?_
  rw [← length_useful] at hj
  rw [targets, transitions_retain (getElem?_useful_origin hj)]
  exact ⟨inOrder_ascending (climbs_moved ha _) horder,
    grow_congr m fun t => by simp only [List.mem_map, mem_ascending]; rfl⟩

theorem Valid.getElem?_useful_zero (ha : a.Valid) (hlive : a.Live a.initial) :
    a.useful[0]? = some a.initial :=
  ha.getElem?_useful ha.explored_forwardSweep.head hlive

theorem Valid.initial_retain_useful (ha : a.Valid) (hlive : a.Live a.initial) :
    (a.retain a.useful).initial = 0 := by
  have hinitial := (ha.selects_useful hlive).initial_retain
  have hlt := (List.getElem?_eq_some_iff.mp hinitial).1
  exact (List.getElem?_inj hlt ha.nodup_useful).mp
    (hinitial.trans (ha.getElem?_useful_zero hlive).symm)

theorem Valid.trim_of_live (ha : a.Valid) (hlive : a.Live a.initial) :
    a.trim = (a.retain a.useful).setSingleton a.singleton := by
  rcases ha.trim_cases with ⟨-, heq⟩ | ⟨hdead, -⟩
  · exact heq
  · exact absurd hlive hdead

theorem Valid.trim_of_not_live (ha : a.Valid) (hdead : ¬ a.Live a.initial) : a.trim = empty := by
  rcases ha.trim_cases with ⟨hlive, -⟩ | ⟨-, heq⟩
  · exact absurd hlive hdead
  · exact heq

/-- What is trimmed is swept as it stands. -/
theorem Valid.reachable_trim (ha : a.Valid) : a.trim.reachable = List.range a.trim.size := by
  rcases ha.trim_cases with ⟨hlive, heq⟩ | ⟨-, heq⟩
  · rw [heq]
    exact reachable_eq_range (ha.initial_retain_useful hlive) (ha.breadthFirst_retain_useful hlive)
  · rw [heq]
    decide

/-! ## Trimming again -/

private theorem places_range {n : Nat} (hq : q < n) :
    (places (List.range n) n).getD q none = some q :=
  (places_eq_some_iff List.nodup_range).mpr ⟨hq, List.getElem?_range hq⟩

/-- Retaining every state in its place changes marks alone. -/
theorem Valid.retain_range (ha : a.Valid) :
    a.retain (List.range a.size) = ofStates a.states.toList a.initial := by
  have hkeeps : ∀ q, relocate (places (List.range a.size) a.size) (a.state q) = a.state q := by
    intro q
    have hsame : ((a.state q).transitions.filterMap fun t =>
        ((places (List.range a.size) a.size).getD t.target none).map fun place =>
          (⟨t.interval, place⟩ : Transition)) = (a.state q).transitions := by
      refine (List.filterMap_congr fun t ht => ?_).trans List.filterMap_some
      rw [places_range (ha.target_lt q t ht)]
      rfl
    rw [relocate, hsame]
    exact congrArg (State.mk _) (ha.ascends q).ascending_eq
  have hstates : (List.range a.size).map
      (fun q => relocate (places (List.range a.size) a.size) (a.state q)) = a.states.toList := by
    refine List.ext_getElem (by simp [size]) fun q hq hq' => ?_
    rw [List.getElem_map, List.getElem_range, hkeeps, Array.getElem_toList, getElem_states]
  rw [Automaton.retain, hstates, places_range ha.initial_lt, Option.getD_some]

/-- An automaton that is swept as it stands is left alone, unless it has marks to lose. -/
theorem Valid.trim_eq_self (ha : a.Valid) (ht : a.Trimmed)
    (hswept : a.reachable = List.range a.size)
    (hmarks : a = (ofStates a.states.toList a.initial).setSingleton a.singleton) : a.trim = a := by
  have huseful : a.useful = List.range a.size := by
    rw [useful, hswept]
    exact List.filter_eq_self.mpr fun q hq => ha.live_iff.mpr (ht q (List.mem_range.mp hq)).2
  rw [ha.trim_of_live (ht _ ha.initial_lt).2, huseful, ha.retain_range]
  exact hmarks.symm

theorem trim_empty : empty.trim = empty := valid_empty.trim_of_not_live (not_live_empty _)

theorem Valid.trim_trim (ha : a.Valid) : a.trim.trim = a.trim := by
  rcases ha.trim_cases with ⟨hlive, heq⟩ | ⟨-, heq⟩
  · exact ha.trim_valid.trim_eq_self (ha.trimmed_trim hlive) ha.reachable_trim (heq ▸ rfl)
  · rw [heq, trim_empty]

/-! ## The correspondence of states -/

/-- The states on accepted paths. -/
def usefulStates (a : Automaton) : Set Nat := {q | a.Reachable q ∧ a.Live q}

/-- The states of `b` on accepted paths are those of `a`, named by `f`. -/
structure Renames (f : Nat → Nat) (b a : Automaton) : Prop where
  bijOn : Set.BijOn f b.usefulStates a.usefulStates
  initial_eq : f b.initial = a.initial
  isAccepting_eq : ∀ i ∈ b.usefulStates, b.isAccepting i = a.isAccepting (f i)
  mem_transitions_iff : ∀ i ∈ b.usefulStates, ∀ j ∈ b.usefulStates, ∀ interval : Interval,
    ⟨interval, j⟩ ∈ b.transitions i ↔ ⟨interval, f j⟩ ∈ a.transitions (f i)

theorem usefulStates_eq_empty (h : ¬ a.Live a.initial) : a.usefulStates = ∅ :=
  Set.eq_empty_of_forall_notMem fun _ ⟨⟨_, hw⟩, hq⟩ => h (hq.of_path hw)

theorem Trimmed.usefulStates_eq (ht : a.Trimmed) : a.usefulStates = {q | q < a.size} :=
  Set.ext fun q => ⟨fun hq => hq.2.lt, ht q⟩

theorem renames_of_empty {b : Automaton} {f : Nat → Nat} (hb : b.usefulStates = ∅)
    (ha : a.usefulStates = ∅) (hinitial : f b.initial = a.initial) : Renames f b a where
  bijOn := by
    rw [hb, ha]
    exact Set.bijOn_empty f
  initial_eq := hinitial
  isAccepting_eq i hi := absurd (hb ▸ hi) (Set.notMem_empty i)
  mem_transitions_iff i hi := absurd (hb ▸ hi) (Set.notMem_empty i)

theorem Valid.usefulStates_trim (ha : a.Valid) (hlive : a.Live a.initial) :
    a.trim.usefulStates = {i | i < a.useful.length} := by
  rw [(ha.trimmed_trim hlive).usefulStates_eq, ha.trim_of_live hlive, ← size_retain (a := a)]
  rfl

theorem Valid.bijOn_origin (ha : a.Valid) :
    Set.BijOn a.origin {i | i < a.useful.length} a.usefulStates := by
  refine ⟨fun i hi => ?_, fun i hi j hj hij => ?_, fun q hq => ?_⟩
  · exact ha.mem_useful.mp (List.mem_of_getElem? (getElem?_useful_origin hi))
  · refine (List.getElem?_inj hi ha.nodup_useful).mp ?_
    rw [getElem?_useful_origin hi, getElem?_useful_origin hj, hij]
  · obtain ⟨i, hi⟩ := List.mem_iff_getElem?.mp (ha.mem_useful.mpr hq)
    exact ⟨i, (List.getElem?_eq_some_iff.mp hi).1, origin_eq hi⟩

/-- Only intervals between states that stay are in the lists of trimmed states. -/
theorem Valid.mem_transitions_trim (ha : a.Valid) (hlive : a.Live a.initial)
    (hi : i < a.useful.length) (hj : j < a.useful.length) {interval : Interval} :
    ⟨interval, j⟩ ∈ a.trim.transitions i ↔
      ⟨interval, a.origin j⟩ ∈ a.transitions (a.origin i) := by
  have hi := getElem?_useful_origin hi
  have hj := getElem?_useful_origin hj
  rw [ha.trim_of_live hlive]
  refine (ha.selects_useful hlive).mem_transitions_retain.trans
    ⟨?_, fun h => ⟨_, _, hi, hj, h⟩⟩
  rintro ⟨p, q, hp, hq, hmem⟩
  rwa [origin_eq hp, origin_eq hq]

theorem Valid.renames_origin (ha : a.Valid) : Renames a.origin a.trim a := by
  by_cases hlive : a.Live a.initial
  · have huseful := ha.usefulStates_trim hlive
    have heq := ha.trim_of_live hlive
    refine ⟨huseful ▸ ha.bijOn_origin, ?_, fun i hi => ?_, fun i hi j hj interval => ?_⟩
    · have hinitial : a.trim.initial = 0 := heq ▸ ha.initial_retain_useful hlive
      rw [hinitial]
      exact origin_eq (ha.getElem?_useful_zero hlive)
    · rw [huseful] at hi
      rw [heq]
      exact isAccepting_retain (getElem?_useful_origin hi)
    · rw [huseful] at hi hj
      exact ha.mem_transitions_trim hlive hi hj
  · have hempty : a.usefulStates = ∅ := usefulStates_eq_empty hlive
    have hnone : a.useful = [] := List.eq_nil_iff_forall_not_mem.mpr fun q hq =>
      Set.notMem_empty q (hempty ▸ ha.mem_useful.mp hq)
    refine renames_of_empty ?_ hempty ?_
    · rw [ha.trim_of_not_live hlive]
      exact usefulStates_eq_empty (not_live_empty _)
    · rw [origin, hnone]
      rfl

/-- **Trimming is exact**: the language stays, the states on accepted paths stay as they are up to
their names, which become breadth-first numbers, and what was trimmed once is not changed again. -/
theorem Valid.trim_exact (ha : a.Valid) :
    a.trim.language = a.language ∧ (a.trim = empty ↔ a.language = 0) ∧
      (a.trim ≠ empty → a.trim.Trimmed) ∧ a.trim.reachable = List.range a.trim.size ∧
      (∃ f, Renames f a.trim a) ∧ a.trim.trim = a.trim := by
  refine ⟨ha.trim_language, ⟨fun h => ?_, fun h => ?_⟩, fun h => ?_,
    ha.reachable_trim, ⟨a.origin, ha.renames_origin⟩, ha.trim_trim⟩
  · rw [← ha.trim_language, h]
    exact not_live_initial_iff.mp (not_live_empty _)
  · exact ha.trim_of_not_live (not_live_initial_iff.mpr h)
  · by_contra hnot
    exact h (ha.trim_of_not_live fun hlive => hnot (ha.trimmed_trim hlive))

/-- The sweep starts at state 2 and finds a dead state first. State 4 is live but out of reach. -/
def untidy : Automaton :=
  ⟨#[⟨false, [⟨.single 98, 0⟩]⟩, ⟨true, []⟩,
    ⟨false, [⟨.single 97, 0⟩, ⟨.single 97, 3⟩, ⟨.single 98, 1⟩]⟩,
    ⟨false, [⟨.single 99, 1⟩, ⟨.single 99, 3⟩]⟩,
    ⟨false, [⟨.single 97, 1⟩]⟩], 2, false, false, none⟩

/-- The states 2, 3 and 1 of `untidy`, where the targets of state 3 have changed places. -/
def tidy : Automaton :=
  ⟨#[⟨false, [⟨.single 97, 1⟩, ⟨.single 98, 2⟩]⟩,
    ⟨false, [⟨.single 99, 1⟩, ⟨.single 99, 2⟩]⟩, ⟨true, []⟩], 0, false, false, none⟩

theorem trim_exact_untidy : untidy.Valid ∧ untidy.trim = tidy ∧ tidy.Trimmed ∧
    tidy.language = untidy.language ∧ tidy.trim = tidy := by
  have hvalid : untidy.Valid := by decide
  have heq : untidy.trim = tidy := by decide +kernel
  obtain ⟨hlanguage, -, htrimmed, -, -, hagain⟩ := hvalid.trim_exact
  rw [heq] at hlanguage htrimmed hagain
  exact ⟨hvalid, heq, htrimmed (by decide), hlanguage, hagain⟩

end Automaton

end IntervalAutomata
