import IntervalAutomata.Proofs.Canonical
import IntervalAutomata.Proofs.Construction
import Mathlib.Data.List.Pairwise

/-! # Reducing transitions

Reducing a state lines up its transitions by target and joins those that continue one another. Lined up
like that the entries with one target start in ascending order, so the state moves as before. Added to a
blank state they fall into the order of their intervals, and the mark that came about on the way tells
whether any of them overlap. Joined transitions are left as they are, so a canonical automaton comes
back unchanged. -/

namespace IntervalAutomata

namespace Automaton

theorem byTarget_lt_iff {s t : Transition} :
    byTarget s t = .lt ↔ s.target < t.target ∨
      s.target = t.target ∧ Interval.order s.interval t.interval = .lt := by
  simp [byTarget, compareLex, compareOn, Ordering.then_eq_lt, Nat.compare_eq_lt]

instance : Std.TransCmp byTarget :=
  inferInstanceAs (Std.TransCmp (compareLex _ _))

instance : Std.LawfulEqCmp byTarget where
  compare_self := Std.ReflCmp.compare_self
  eq_of_compare {s t} h := by
    simp only [byTarget, compareLex_eq_eq, compareOn, Std.LawfulEqCmp.compare_eq_iff_eq] at h
    cases s; cases t; simp_all

end Automaton

/-- The fewest transitions for the same moves, in order. -/
def reducedState (s : State) : State where
  accept := s.accept
  transitions := ascending Transition.order (Automaton.reducedTransitions s)

open Automaton

variable {l : List Transition}

/-! ## Moves -/

theorem rising_byTarget (l : List Transition) : Rising (ascending byTarget l) := by
  have hascends : Ascends byTarget (ascending byTarget l) := ascends_ascending l
  refine hascends.imp fun {s t} hlt htarget => ?_
  obtain hlt | ⟨-, hlt⟩ := byTarget_lt_iff.mp hlt
  · omega
  · obtain hlt | ⟨heq, -⟩ := Interval.order_lt_iff.mp hlt <;> omega

theorem moves_reducedState {s : State} {c q : Nat} :
    Moves (reducedState s).transitions c q ↔ Moves s.transitions c q := by
  rw [reducedState, moves_congr fun t => mem_ascending, reducedTransitions,
    moves_coalesce (rising_byTarget _), moves_congr fun t => mem_ascending]

theorem proper_reducedState {s : State} (hp : ∀ t ∈ s.transitions, t.interval.Proper) :
    ∀ t ∈ (reducedState s).transitions, t.interval.Proper := by
  intro t ht
  exact proper_coalesce (fun u hu => hp u (mem_ascending.mp hu)) t (mem_ascending.mp ht)

/-! ## Joined transitions -/

theorem coalesceFrom_eq_cons {last : Transition}
    (h : (last :: l).Pairwise fun s t => s.target = t.target → s.interval.touches t.interval = false) :
    coalesceFrom last l = last :: l := by
  induction l generalizing last with
  | nil => rfl
  | cons t l ih =>
    obtain ⟨hlast, hrest⟩ := List.pairwise_cons.mp h
    have hskip : (t.target = last.target && last.interval.touches t.interval) ≠ true := by
      intro hjoin
      obtain ⟨htarget, htouches⟩ := Bool.and_eq_true_iff.mp hjoin
      rw [hlast t (by simp) (of_decide_eq_true htarget).symm] at htouches
      cases htouches
    rw [coalesceFrom, if_neg hskip, ih hrest]

/-- Entries that touch no entry with their target stay as they are. -/
theorem coalesce_eq_self
    (h : l.Pairwise fun s t => s.target = t.target → s.interval.touches t.interval = false) :
    coalesce l = l := by
  cases l with
  | nil => rfl
  | cons t l => exact coalesceFrom_eq_cons h

/-- A symbol lies between two entries with one target. -/
def Detached (s t : Transition) : Prop :=
  s.target = t.target → s.interval.max + 1 < t.interval.min ∨ t.interval.max + 1 < s.interval.min

instance : Std.Symm Detached where
  symm _ _ h htarget := (h htarget.symm).symm

theorem Joined.not_touches (hj : Joined l) (hp : ∀ t ∈ l, t.interval.Proper) :
    (ascending byTarget l).Pairwise fun s t =>
      s.target = t.target → s.interval.touches t.interval = false := by
  have hdetached : l.Pairwise Detached := hj.imp fun h htarget => .inl (h htarget)
  have hascends : Ascends byTarget (ascending byTarget l) := ascends_ascending l
  refine hascends.imp_of_mem fun {s t} hs ht hlt htarget => ?_
  rw [mem_ascending] at hs ht
  have hfar := hdetached.forall hs ht (ne_of_lt_cmp hlt) htarget
  have hmin : s.interval.min ≤ t.interval.min := by
    rcases byTarget_lt_iff.mp hlt with hlt | ⟨-, hlt⟩
    · omega
    · rcases Interval.order_lt_iff.mp hlt with hlt | ⟨heq, -⟩ <;> omega
  have hs := (hp s hs).min_le_max
  have ht := (hp t ht).min_le_max
  simp only [Interval.touches, Bool.or_eq_false_iff, Interval.overlaps_eq_false_iff,
    Interval.abuts, Bool.and_eq_false_iff, beq_eq_false_iff_ne]
  omega

/-- Joined transitions are reduced. -/
theorem reducedState_eq_self {s : State} (ha : Apart s.transitions) (hj : Joined s.transitions)
    (hp : ∀ t ∈ s.transitions, t.interval.Proper) : reducedState s = s := by
  rw [reducedState, reducedTransitions, coalesce_eq_self (hj.not_touches hp)]
  have hsame : ascending Transition.order (ascending byTarget s.transitions) = s.transitions := by
    rw [ascending_congr fun t => mem_ascending]
    exact (ha.ascends hp).ascending_eq
  rw [hsame]

namespace Automaton

variable {a : Automaton} {p c q : Nat} {w : List Nat}

/-! ## Reduced states -/

/-- The states of `a` with the transitions that reducing leaves, and the marks of `a`. -/
def reduced (a : Automaton) : Automaton :=
  { ofStates (a.states.toList.map reducedState) a.initial with
    minimal := a.minimal
    singleton := a.singleton }

theorem size_reduced : a.reduced.size = a.size := by
  show (ofStates (a.states.toList.map reducedState) a.initial).size = a.size
  rw [size_ofStates, List.length_map, Array.length_toList, size]

theorem state_reduced (q : Nat) : a.reduced.state q = reducedState (a.state q) := by
  have hstates : a.reduced.states = (a.states.toList.map reducedState).toArray := rfl
  rw [state, state, hstates, Array.getD_eq_getD_getElem?, Array.getD_eq_getD_getElem?,
    List.getElem?_toArray, List.getElem?_map, Array.getElem?_toList]
  cases a.states[q]? <;> rfl

theorem step_reduced : a.reduced.Step p c q ↔ a.Step p c q := by
  rw [Step, transitions, state_reduced]
  exact moves_reducedState

theorem Valid.reduced (ha : a.Valid) : a.reduced.Valid := by
  have hproper : ∀ p, ∀ t ∈ a.reduced.transitions p, t.interval.Proper := by
    intro p
    rw [transitions, state_reduced]
    exact proper_reducedState (ha.proper p)
  refine ⟨size_reduced.symm ▸ ha.initial_lt, fun p t ht => ?_, fun p => ?_, hproper⟩
  · have hstep : a.reduced.Step p t.interval.min t.target :=
      ⟨t, ht, (hproper p t ht).contains_min, rfl⟩
    rw [size_reduced]
    exact ha.step_lt (step_reduced.mp hstep)
  · rw [transitions, state_reduced]
    exact ascends_ascending _

/-! ## State by state -/

/-- A state without its transitions. -/
def bare (s : State) : State := { accept := s.accept }

theorem blank_spec (hpos : 0 < a.size) : a.blank.Built ∧ a.blank.initial = 0 ∧
    a.blank.states.toList = a.states.toList.map bare := by
  have hne : a.states.toList ≠ [] := by
    intro hnil
    rw [size, ← Array.length_toList, hnil] at hpos
    exact Nat.lt_irrefl _ hpos
  suffices h : a.blank.Built ∧ a.blank.initial = 0 ∧ (a.states.toList = [] → a.blank = new) ∧
      (a.states.toList ≠ [] → a.blank.states.toList = a.states.toList.map bare) from
    ⟨h.1, h.2.1, h.2.2.2 hne⟩
  -- the first state is there from the start, all others are appended
  refine foldl_zipIdx_induction (fun done b => b.Built ∧ b.initial = 0 ∧ (done = [] → b = new) ∧
    (done ≠ [] → b.states.toList = done.map bare)) ⟨built_new, rfl, fun _ => rfl, by simp⟩
    fun {done s _ b} _ hb => ?_
  obtain ⟨hbuilt, hinitial, hnil, hcons⟩ := hb
  cases done with
  | nil =>
    rw [hnil rfl]
    exact ⟨built_new.setAccept 0 _, rfl, by simp, fun _ => rfl⟩
  | cons s' done =>
    have hstates : (b.addState false).states.toList = (s' :: done).map bare ++ [({} : State)] := by
      rw [toList_addState, hcons (List.cons_ne_nil _ _)]
    refine ⟨(hbuilt.addState false).setAccept _ _, hinitial, by simp, fun _ => ?_⟩
    rw [List.map_append, ← List.length_map bare]
    exact toList_setAccept hstates

/-- The states that have been passed are reduced, those to come are bare. -/
theorem addReduced_spec {b : Automaton} (hbuilt : b.Built) (hinitial : b.initial = a.initial)
    (hstates : b.states.toList = a.states.toList.map bare) :
    (a.addReduced b).Built ∧ (a.addReduced b).initial = a.initial ∧
      (a.addReduced b).states.toList = a.states.toList.map reducedState := by
  suffices h : (a.addReduced b).Built ∧ (a.addReduced b).initial = a.initial ∧
      ∀ rest, a.states.toList = a.states.toList ++ rest →
        (a.addReduced b).states.toList = a.states.toList.map reducedState ++ rest.map bare by
    exact ⟨h.1, h.2.1, by simpa using h.2.2 [] (List.append_nil _).symm⟩
  refine foldl_zipIdx_induction (fun done (b : Automaton) => b.Built ∧ b.initial = a.initial ∧
    ∀ rest, a.states.toList = done ++ rest →
      b.states.toList = done.map reducedState ++ rest.map bare)
    ⟨hbuilt, hinitial, fun rest hrest => ?_⟩
    fun {done s rest b} hsplit hb => ?_
  · rw [List.nil_append] at hrest
    exact hrest ▸ hstates
  · obtain ⟨hbuilt, hinitial, hb⟩ := hb
    have hb := hb _ hsplit
    rw [List.map_cons] at hb
    have hlt := lt_size_of_toList hb
    have hadded := toList_addAll hb List.Pairwise.nil (reducedTransitions s)
    rw [List.length_map] at hlt hadded
    refine ⟨hbuilt.addAll hlt _, initial_addAll.trans hinitial, fun rest' hrest' => ?_⟩
    rw [hsplit, List.append_assoc] at hrest'
    obtain rfl : rest = rest' := by simpa using hrest'
    rw [hadded, bare, insertAll_nil, List.map_append, List.append_assoc]
    rfl

/-- **Adding the reduced transitions state by state gives the reduced states**, with the mark that says
whether they overlap. -/
theorem Valid.reduce_eq (ha : a.Valid) : a.reduce = a.reduced := by
  obtain ⟨hblank, -, hbare⟩ := blank_spec (Nat.zero_lt_of_lt ha.initial_lt)
  obtain ⟨hbuilt, hinitial, hstates⟩ :=
    addReduced_spec (a := a) (hblank.setInitial a.initial) rfl hbare
  have hsame : (a.addReduced (a.blank.setInitial a.initial)).states = a.reduced.states :=
    congrArg List.toArray hstates
  have hresult := hbuilt.eq_ofStates fun p t ht => by
    rw [transitions, state_congr hsame] at ht
    exact (ha.reduced.proper p t ht).min_le_max
  rw [hstates, hinitial] at hresult
  rw [Automaton.reduce, hresult, Automaton.reduced]
  cases a.minimal <;> cases a.singleton <;> rfl

/-! ## Reduced automata -/

variable (ha : a.Valid)
include ha

theorem Valid.size_reduce : a.reduce.size = a.size := by rw [ha.reduce_eq, size_reduced]

theorem Valid.state_reduce (q : Nat) : a.reduce.state q = reducedState (a.state q) := by
  rw [ha.reduce_eq, state_reduced]

theorem Valid.step_reduce : a.reduce.Step p c q ↔ a.Step p c q := by
  rw [ha.reduce_eq, step_reduced]

theorem Valid.residual_reduce : a.reduce.residual p = a.residual p := by
  ext w
  induction w generalizing p with
  | nil => rw [nil_mem_residual, nil_mem_residual, isAccepting, ha.state_reduce]; rfl
  | cons c w ih => simp only [cons_mem_residual, ha.step_reduce, ih]

theorem Valid.reduce : a.reduce.Valid := ha.reduce_eq ▸ ha.reduced

omit ha

/-- **Reducing keeps the language**, and the marks stay truthful. -/
theorem WellFormed.reduce (ha : a.WellFormed) :
    a.reduce.WellFormed ∧ a.reduce.language = a.language := by
  have hlanguage : a.reduce.language = a.language := by
    rw [language, ha.toValid.residual_reduce, ha.toValid.reduce_eq]
    rfl
  have hvalid := ha.toValid.reduced
  have hstates : (ofStates (a.states.toList.map reducedState) a.initial).Valid :=
    hvalid.congr rfl rfl
  rw [ha.toValid.reduce_eq] at hlanguage ⊢
  have hsame : (ofStates (a.states.toList.map reducedState) a.initial).language = a.reduced.language :=
    language_congr rfl rfl
  exact ⟨(wellFormed_ofStates hstates).congr rfl rfl rfl fun text ht =>
    hsame.trans (hlanguage.trans (ha.known text ht)), hlanguage⟩

theorem Canonical.states_reduce (h : a.Canonical) : a.reduce.states = a.states := by
  rw [h.toValid.reduce_eq]
  show (a.states.toList.map reducedState).toArray = a.states
  rw [List.map_congr_left fun s hs => ?_, List.map_id]
  obtain ⟨q, hq⟩ := List.getElem?_of_mem hs
  have hstate : a.state q = s := by
    rw [state, Array.getD_eq_getD_getElem?, ← Array.getElem?_toList, hq]
    rfl
  rw [← hstate]
  exact reducedState_eq_self (h.apart q) (h.joined q) (h.proper q)

theorem Canonical.reduce (h : a.Canonical) :
    a.reduce.Canonical ∧ a.reduce.deterministic = true := by
  have hinitial : a.reduce.initial = a.initial := by
    rw [h.toValid.reduce_eq]
    rfl
  have hcanonical : a.reduce.Canonical := h.congr h.states_reduce.symm hinitial.symm
  refine ⟨hcanonical, ?_⟩
  rw [h.toValid.reduce_eq] at hcanonical ⊢
  have hstates : (ofStates (a.states.toList.map reducedState) a.initial).Canonical :=
    hcanonical.congr rfl rfl
  exact (deterministic_ofStates hstates.toValid).mpr hstates.separated

end Automaton

end IntervalAutomata
