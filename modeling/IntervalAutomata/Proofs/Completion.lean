import IntervalAutomata.Operation.Complement
import IntervalAutomata.Proofs.Build
import IntervalAutomata.Proofs.Construction
import IntervalAutomata.Proofs.Trim

/-! # Completion

The gaps of an ascending list are what its coverage of the alphabet lacks: there are none exactly when
the list passes the check of completeness. In a list without overlaps they hold the symbols that no
entry covers. Leading them to a sink gives every state one way to go on with every symbol, and since
the sink accepts nothing the language stays; where nothing is missing the automaton stays as it is. The
sink comes up with the first gap. Up to there nothing has changed, and from there on the states that
have been passed are filled and the sink stands behind all others (`Filling`). -/

namespace IntervalAutomata

open Automaton

variable {l : List Transition} {c next : Nat}

/-! ## Gaps -/

/-- The gaps from `next` on hold what no entry covers. -/
theorem contains_gapsFrom (ha : Apart l) (hp : ∀ t ∈ l, t.interval.Proper)
    (hnext : ∀ t ∈ l, next ≤ t.interval.min) :
    (∃ i ∈ gapsFrom next l, i.contains c = true) ↔
      next ≤ c ∧ c ≤ maxSymbol ∧ ∀ t ∈ l, ¬ t.interval.contains c = true := by
  induction l generalizing next with
  | nil =>
    unfold gapsFrom
    split
    · simp [Interval.contains_iff]
    · simp
      omega
  | cons t rest ih =>
    obtain ⟨ht, hrest⟩ := List.pairwise_cons.mp ha
    obtain ⟨hproper, hmax⟩ := hp t List.mem_cons_self
    have hstart := hnext t List.mem_cons_self
    have hnone : c < t.interval.min → ∀ u ∈ rest, ¬ u.interval.contains c = true := by
      intro hc u hu huc
      have := ht u hu
      rw [Interval.contains_iff] at huc
      omega
    have hmaxnext : Nat.max next (t.interval.max + 1) = t.interval.max + 1 :=
      Nat.max_eq_right (by omega)
    have hlater := ih hrest (fun u hu => hp u (List.mem_cons_of_mem _ hu)) ht
    rw [gapsFrom, hmaxnext, List.forall_mem_cons, Interval.contains_iff]
    split
    · rw [List.exists_mem_cons_iff, hlater, Interval.contains_iff]
      constructor
      · rintro (hc | ⟨hc, hsymbol, hrest⟩)
        · have hc : next ≤ c ∧ c ≤ t.interval.min - 1 := hc
          exact ⟨hc.1, by omega, by omega, hnone (by omega)⟩
        · exact ⟨by omega, hsymbol, by omega, hrest⟩
      · intro h
        obtain ⟨hc, hsymbol, hnot, hrest⟩ := h
        rcases Nat.lt_or_ge c t.interval.min with hlt | hge
        · exact .inl ⟨hc, by dsimp only; omega⟩
        · exact .inr ⟨by omega, hsymbol, hrest⟩
    · rw [hlater]
      constructor
      · intro h
        obtain ⟨hc, hsymbol, hrest⟩ := h
        exact ⟨by omega, hsymbol, by omega, hrest⟩
      · intro h
        obtain ⟨hc, hsymbol, hnot, hrest⟩ := h
        exact ⟨by omega, hsymbol, hrest⟩

theorem proper_gapsFrom (hp : ∀ t ∈ l, t.interval.Proper) : ∀ i ∈ gapsFrom next l, i.Proper := by
  induction l generalizing next with
  | nil =>
    unfold gapsFrom
    split
    · rename_i hle
      intro i hi
      rw [List.mem_singleton.mp hi]
      exact ⟨hle, Nat.le_refl _⟩
    · exact nofun
  | cons t rest ih =>
    obtain ⟨hproper, hmax⟩ := hp t List.mem_cons_self
    have hlater : ∀ next, ∀ i ∈ gapsFrom next rest, i.Proper := fun next =>
      ih fun u hu => hp u (List.mem_cons_of_mem _ hu)
    unfold gapsFrom
    split
    · rename_i hlt
      refine List.forall_mem_cons.mpr ⟨⟨?_, ?_⟩, hlater _⟩ <;> dsimp only <;> omega
    · exact hlater _

theorem le_min_of_mem_gapsFrom : ∀ i ∈ gapsFrom next l, next ≤ i.min := by
  induction l generalizing next with
  | nil =>
    unfold gapsFrom
    split
    · exact fun i hi => Nat.le_of_eq (List.mem_singleton.mp hi ▸ rfl)
    · exact nofun
  | cons t rest ih =>
    have hlater : ∀ i ∈ gapsFrom (Nat.max next (t.interval.max + 1)) rest, next ≤ i.min :=
      fun i hi => Nat.le_trans (Nat.le_max_left _ _) (ih i hi)
    unfold gapsFrom
    split
    · exact List.forall_mem_cons.mpr ⟨Nat.le_refl _, hlater⟩
    · exact hlater

/-- Gaps come in ascending order, with an entry between each and the next. -/
theorem pairwise_gapsFrom (hp : ∀ t ∈ l, t.interval.Proper) :
    (gapsFrom next l).Pairwise fun i j => i.max < j.min := by
  induction l generalizing next with
  | nil =>
    unfold gapsFrom
    split
    · exact List.pairwise_singleton _ _
    · exact List.Pairwise.nil
  | cons t rest ih =>
    have hproper := (hp t List.mem_cons_self).min_le_max
    have hlater : (gapsFrom (Nat.max next (t.interval.max + 1)) rest).Pairwise
        fun i j => i.max < j.min := ih fun u hu => hp u (List.mem_cons_of_mem _ hu)
    unfold gapsFrom
    split
    · refine List.pairwise_cons.mpr ⟨fun j hj => ?_, hlater⟩
      have hle := Nat.le_trans (Nat.le_max_right next _) (le_min_of_mem_gapsFrom j hj)
      dsimp only
      omega
    · exact hlater

/-! ## Coverage -/

namespace Automaton

variable {a b m : Automaton} {p q : Nat} {w : List Nat}

/-- A list passes the check where it leaves no gap, whatever its order. -/
theorem coversFrom_eq_isEmpty (next : Nat) (l : List Transition) :
    coversFrom next l = (gapsFrom next l).isEmpty := by
  induction l generalizing next with
  | nil =>
    unfold coversFrom gapsFrom
    split <;> simp <;> omega
  | cons t rest ih =>
    unfold coversFrom gapsFrom
    dsimp only
    split
    · simp
      omega
    · rw [ih, decide_eq_true (by omega), Bool.true_and]

/-- **The check of one list.** Where the entries ascend, overlapping or not, each symbol has an entry that
covers it exactly when no entry starts behind the symbols that the ones before it cover. -/
theorem coversFrom_iff (hl : Ascends Transition.order l) (hp : ∀ t ∈ l, t.interval.Proper) :
    coversFrom next l = true ↔
      ∀ c, next ≤ c → c ≤ maxSymbol → ∃ t ∈ l, t.interval.contains c = true := by
  induction l generalizing next with
  | nil =>
    rw [coversFrom, decide_eq_true_eq]
    constructor
    · intro h c hc hle
      omega
    · intro h
      by_contra hle
      obtain ⟨t, ht, -⟩ := h next (Nat.le_refl _) (by omega)
      cases ht
  | cons t rest ih =>
    obtain ⟨ht, hrest⟩ := List.pairwise_cons.mp hl
    obtain ⟨hproper, hmax⟩ := hp t List.mem_cons_self
    have hafter : ∀ u ∈ rest, t.interval.min ≤ u.interval.min := by
      intro u hu
      rcases Transition.order_lt_iff_numbers.mp (ht u hu) with h | ⟨h, -⟩
      · exact Nat.le_of_lt h
      · exact Nat.le_of_eq h
    rw [coversFrom, Bool.and_eq_true, decide_eq_true_eq,
      ih hrest fun u hu => hp u (List.mem_cons_of_mem _ hu), Nat.max_eq_max]
    constructor
    · intro ⟨hmin, hlater⟩ c hc hle
      by_cases hin : c ≤ t.interval.max
      · exact ⟨t, List.mem_cons_self, Interval.contains_iff.mpr ⟨by omega, hin⟩⟩
      · obtain ⟨u, hu, huc⟩ := hlater c (by omega) hle
        exact ⟨u, List.mem_cons_of_mem _ hu, huc⟩
    · intro h
      refine ⟨?_, fun c hc hle => ?_⟩
      · -- otherwise the first symbol would lie before all entries
        by_contra hgap
        obtain ⟨u, hu, huc⟩ := h next (Nat.le_refl _) (by omega)
        rw [Interval.contains_iff] at huc
        rcases List.mem_cons.mp hu with rfl | hu
        · omega
        · have := hafter u hu
          omega
      · obtain ⟨u, hu, huc⟩ := h c (by omega) hle
        rcases List.mem_cons.mp hu with rfl | hu
        · rw [Interval.contains_iff] at huc
          omega
        · exact ⟨u, hu, huc⟩

/-- Every state goes on with every symbol of the alphabet. -/
def Total (a : Automaton) : Prop := ∀ p < a.size, ∀ c ≤ maxSymbol, ∃ q, a.Step p c q

theorem isComplete_iff_coversFrom :
    a.isComplete = true ↔ ∀ p < a.size, coversFrom 0 (a.transitions p) = true := by
  rw [isComplete, List.all_eq_true]
  constructor
  · intro h p hp
    have hp : p < a.states.size := hp
    rw [transitions, ← getElem_states hp]
    exact h _ (Array.getElem_mem_toList hp)
  · intro h s hs
    obtain ⟨p, hp, rfl⟩ := Array.mem_iff_getElem.mp (Array.mem_toList_iff.mp hs)
    rw [getElem_states hp]
    exact h p hp

theorem Valid.isComplete_iff_total (ha : a.Valid) : a.isComplete = true ↔ a.Total := by
  rw [isComplete_iff_coversFrom]
  refine forall₂_congr fun p _ => ?_
  rw [coversFrom_iff (ha.ascends p) (ha.proper p)]
  refine forall_congr' fun c => ?_
  rw [imp_iff_right (Nat.zero_le c)]
  refine imp_congr_right fun _ => ?_
  constructor
  · intro ⟨t, ht, hc⟩
    exact ⟨t.target, t, ht, hc, rfl⟩
  · intro ⟨_, t, ht, hc, _⟩
    exact ⟨t, ht, hc⟩

/-! ## Completion -/

/-- The state with its gaps led to `sink`. -/
def fill (sink : Nat) (s : State) : State where
  accept := s.accept
  transitions := insertAll Transition.order ((gapsFrom 0 s.transitions).map fun gap => ⟨gap, sink⟩)
    s.transitions

theorem ascends_fill {sink : Nat} {s : State} (h : Ascends Transition.order s.transitions) :
    Ascends Transition.order (fill sink s).transitions := h.insertAll _

theorem fill_of_isEmpty {sink : Nat} {s : State} (h : (gapsFrom 0 s.transitions).isEmpty = true) :
    fill sink s = s := by
  rw [fill, List.isEmpty_iff.mp h]
  rfl

theorem mem_fill {sink : Nat} {s : State} {t : Transition} : t ∈ (fill sink s).transitions ↔
    (t.interval ∈ gapsFrom 0 s.transitions ∧ t.target = sink) ∨ t ∈ s.transitions := by
  rw [fill, mem_insertAll, List.mem_map]
  refine or_congr_left ⟨?_, ?_⟩
  · rintro ⟨i, hi, rfl⟩
    exact ⟨hi, rfl⟩
  · intro ⟨hi, rfl⟩
    exact ⟨t.interval, hi, rfl⟩

/-- The states with their gaps led to a sink behind them. -/
def completed (a : Automaton) : Automaton :=
  ofStates (a.states.toList.map (fill a.size) ++ [{ transitions := [⟨.full, a.size⟩] }]) a.initial

theorem size_completed : a.completed.size = a.size + 1 := by
  rw [completed, size_ofStates]
  simp [size]

theorem completed_ne (a : Automaton) : a.completed ≠ a := fun h =>
  Nat.succ_ne_self a.size (size_completed.symm.trans (congrArg size h))

theorem state_completed_of_lt (hp : p < a.size) : a.completed.state p = fill a.size (a.state p) := by
  have hp : p < a.states.size := hp
  rw [completed, state_ofStates]
  simp [List.getD_eq_getElem?_getD, List.getElem?_append, hp, state, Array.getD_eq_getD_getElem?]

theorem state_completed_sink : a.completed.state a.size = { transitions := [⟨.full, a.size⟩] } := by
  rw [completed, state_ofStates]
  simp [List.getD_eq_getElem?_getD, size]

theorem isAccepting_completed : a.completed.isAccepting p = a.isAccepting p := by
  rcases Nat.lt_trichotomy p a.size with hp | rfl | hp
  · rw [isAccepting, state_completed_of_lt hp]
    rfl
  · rw [isAccepting, state_completed_sink, isAccepting, state_of_size_le (Nat.le_refl _)]
  · rw [isAccepting, isAccepting, state_of_size_le (Nat.le_of_lt hp), state_of_size_le]
    rw [size_completed]
    exact hp

/-- A completed automaton steps as before, and to the sink where there was no step. -/
theorem Valid.step_completed (ha : a.Valid) (hs : a.Separated) : a.completed.Step p c q ↔
    a.Step p c q ∨ q = a.size ∧ p ≤ a.size ∧ c ≤ maxSymbol ∧ ∀ r, ¬ a.Step p c r := by
  rcases Nat.lt_trichotomy p a.size with hp | rfl | hp
  · have hgaps := contains_gapsFrom (c := c) (ha.apart hs p) (ha.proper p) fun _ _ => Nat.zero_le _
    have hnone : (∀ r, ¬ a.Step p c r) ↔ ∀ t ∈ a.transitions p, ¬ t.interval.contains c = true :=
      ⟨fun h t ht hc => h t.target ⟨t, ht, hc, rfl⟩, fun h r ⟨t, ht, hc, _⟩ => h t ht hc⟩
    rw [hnone, Step, transitions, state_completed_of_lt hp]
    simp only [mem_fill]
    constructor
    · rintro ⟨t, ⟨hgap, htarget⟩ | ht, hc, rfl⟩
      · obtain ⟨-, hle, hnot⟩ := hgaps.mp ⟨t.interval, hgap, hc⟩
        exact .inr ⟨htarget, Nat.le_of_lt hp, hle, hnot⟩
      · exact .inl ⟨t, ht, hc, rfl⟩
    · rintro (⟨t, ht, hc, rfl⟩ | ⟨rfl, -, hle, hnot⟩)
      · exact ⟨t, .inr ht, hc, rfl⟩
      · obtain ⟨i, hgap, hc⟩ := hgaps.mpr ⟨Nat.zero_le c, hle, hnot⟩
        exact ⟨⟨i, a.size⟩, .inl ⟨hgap, rfl⟩, hc, rfl⟩
  · have hnone : ∀ r, ¬ a.Step a.size c r := fun r h => Nat.lt_irrefl _ h.source_lt
    rw [Step, transitions, state_completed_sink, or_iff_right (hnone q)]
    simp only [List.mem_singleton, exists_eq_left, Interval.contains_iff]
    constructor
    · rintro ⟨⟨-, hle⟩, rfl⟩
      exact ⟨rfl, Nat.le_refl _, hle, hnone⟩
    · rintro ⟨rfl, -, hle, -⟩
      exact ⟨⟨Nat.zero_le c, hle⟩, rfl⟩
  · refine iff_of_false (fun h => ?_) ?_
    · have := h.source_lt
      rw [size_completed] at this
      omega
    · rintro (h | ⟨-, hle, -⟩)
      · exact absurd h.source_lt (Nat.not_lt_of_le (Nat.le_of_lt hp))
      · exact absurd hle (Nat.not_le_of_lt hp)

theorem Valid.total_completed (ha : a.Valid) (hs : a.Separated) : a.completed.Total := by
  intro p hp c hc
  rw [size_completed] at hp
  by_cases h : ∃ r, a.Step p c r
  · obtain ⟨r, hr⟩ := h
    exact ⟨r, (ha.step_completed hs).mpr (.inl hr)⟩
  · exact ⟨a.size, (ha.step_completed hs).mpr
      (.inr ⟨rfl, Nat.le_of_lt_succ hp, hc, not_exists.mp h⟩)⟩

theorem Valid.functional_completed (ha : a.Valid) (hs : a.Separated) :
    a.completed.Functional := by
  intro p c q r hq hr
  rcases (ha.step_completed hs).mp hq with hq | ⟨rfl, -, -, hnone⟩
  · rcases (ha.step_completed hs).mp hr with hr | ⟨-, -, -, hnone⟩
    · exact ha.functional hs p c q r hq hr
    · exact absurd hq (hnone q)
  · rcases (ha.step_completed hs).mp hr with hr | ⟨rfl, -⟩
    · exact absurd hr (hnone r)
    · rfl

/-- Gaps overlap neither entries nor one another. -/
theorem apart_fill {s : State} {sink : Nat} (ha : Apart s.transitions)
    (hp : ∀ t ∈ s.transitions, t.interval.Proper) : Apart (fill sink s).transitions := by
  have hproper : ∀ t ∈ (fill sink s).transitions, t.interval.Proper := by
    intro t ht
    rcases mem_fill.mp ht with ⟨hgap, -⟩ | ht
    · exact proper_gapsFrom hp _ hgap
    · exact hp t ht
  refine apart_of_unique (ascends_fill (ha.ascends hp)) hproper fun t ht u hu c htc huc => ?_
  have hgaps := contains_gapsFrom (c := c) ha hp fun _ _ => Nat.zero_le _
  have hapart : Apart ((gapsFrom 0 s.transitions).map fun gap => ⟨gap, sink⟩) :=
    List.pairwise_map.mpr (pairwise_gapsFrom hp)
  rcases mem_fill.mp ht with ⟨hgap, htarget⟩ | ht <;> rcases mem_fill.mp hu with ⟨hgap', htarget'⟩ | hu
  · exact hapart.unique (List.mem_map.mpr ⟨_, hgap, htarget ▸ rfl⟩)
      (List.mem_map.mpr ⟨_, hgap', htarget' ▸ rfl⟩) htc huc
  · exact absurd huc ((hgaps.mp ⟨_, hgap, htc⟩).2.2 u hu)
  · exact absurd htc ((hgaps.mp ⟨_, hgap', huc⟩).2.2 t ht)
  · exact ha.unique ht hu htc huc

theorem Valid.separated_completed (ha : a.Valid) (hs : a.Separated) : a.completed.Separated := by
  refine separated_of_apart fun p => ?_
  rcases Nat.lt_trichotomy p a.size with hp | rfl | hp
  · rw [transitions, state_completed_of_lt hp]
    exact apart_fill (ha.apart hs p) (ha.proper p)
  · rw [transitions, state_completed_sink]
    exact List.pairwise_singleton _ _
  · rw [transitions, state_of_size_le]
    · exact List.Pairwise.nil
    · rw [size_completed]
      exact hp

theorem residual_of_size_le (hp : a.size ≤ p) : w ∉ a.residual p := by
  intro h
  cases w with
  | nil => exact Nat.not_lt_of_le hp (lt_of_isAccepting (nil_mem_residual.mp h))
  | cons c w =>
    obtain ⟨q, hs, -⟩ := cons_mem_residual.mp h
    exact Nat.not_lt_of_le hp hs.source_lt

/-- The sink accepts nothing, so completion keeps what is accepted. -/
theorem Valid.residual_completed (ha : a.Valid) (hs : a.Separated) :
    a.completed.residual p = a.residual p := by
  ext w
  induction w generalizing p with
  | nil => rw [nil_mem_residual, nil_mem_residual, isAccepting_completed]
  | cons c w ih =>
    rw [cons_mem_residual, cons_mem_residual]
    constructor
    · intro ⟨q, hq, hw⟩
      rw [ih] at hw
      rcases (ha.step_completed hs).mp hq with hq | ⟨rfl, -⟩
      · exact ⟨q, hq, hw⟩
      · exact absurd hw (residual_of_size_le (Nat.le_refl _))
    · intro ⟨q, hq, hw⟩
      exact ⟨q, (ha.step_completed hs).mpr (.inl hq), ih.mpr hw⟩

theorem Valid.completed (ha : a.Valid) : a.completed.Valid := by
  refine valid_iff.mpr ⟨size_completed ▸ Nat.lt_succ_of_lt ha.initial_lt, fun s hs => ?_⟩
  rw [size_completed]
  rw [Automaton.completed, ofStates, List.mem_append, List.mem_map, List.mem_singleton] at hs
  rcases hs with ⟨s, hs, rfl⟩ | rfl
  · obtain ⟨hascends, hmem⟩ := (valid_iff.mp ha).2 s hs
    refine ⟨ascends_fill hascends, fun t ht => ?_⟩
    rcases mem_fill.mp ht with ⟨hgap, htarget⟩ | ht
    · exact ⟨by omega, proper_gapsFrom (fun t ht => (hmem t ht).2) _ hgap⟩
    · exact ⟨Nat.lt_succ_of_lt (hmem t ht).1, (hmem t ht).2⟩
  · refine ⟨List.pairwise_singleton _ _, fun t ht => ?_⟩
    rw [List.mem_singleton.mp ht]
    exact ⟨Nat.lt_succ_self _, Nat.zero_le _, Nat.le_refl _⟩

/-! ## The loop -/

/-- The states in `done` are filled and those in `rest` are as they were, with the sink behind them. -/
structure Filling (a : Automaton) (done rest : List State) (b : Automaton) : Prop where
  initial_eq : b.initial = a.initial
  toList_eq : b.states.toList = done.map (fill a.size) ++ rest ++ [{ transitions := [⟨.full, a.size⟩] }]
  built : a.WellFormed → b.Built

/-- The first gap adds the sink. Nothing was missing before. -/
theorem filling_start {done rest : List State} (hsplit : a.states.toList = done ++ rest)
    (hdone : ∀ s ∈ done, (gapsFrom 0 s.transitions).isEmpty = true) :
    Filling a done rest ((a.addState false).addTransition a.size .full a.size) := by
  have hlength : a.states.toList.length = a.size := Array.length_toList
  have hadded : (a.addState false).states.toList = a.states.toList ++ ({} : State) :: [] :=
    toList_addState
  have hlt := hlength ▸ lt_size_of_toList hadded
  have hloop : ((a.addState false).addTransition a.states.toList.length .full a.size).states.toList =
      a.states.toList ++ [{ transitions := [⟨.full, a.size⟩] }] :=
    toList_addTransition hadded List.Pairwise.nil
  rw [hlength, hsplit] at hloop
  refine ⟨initial_addTransition, ?_, fun ha => ?_⟩
  · rw [List.map_congr_left fun s hs => fill_of_isEmpty (hdone s hs), List.map_id']
    exact hloop
  · exact ((ha.addState false).built rfl rfl).addTransition hlt _ _

theorem Filling.addAll {done rest : List State} {s : State} (h : Filling a done (s :: rest) b)
    (hs : Ascends Transition.order s.transitions) : Filling a (done ++ [s]) rest
      (b.addAll done.length ((gapsFrom 0 s.transitions).map fun gap => ⟨gap, a.size⟩)) := by
  have hstates := h.toList_eq
  rw [List.append_assoc, List.cons_append] at hstates
  have hlt := lt_size_of_toList hstates
  have hadded := toList_addAll hstates hs ((gapsFrom 0 s.transitions).map fun gap => ⟨gap, a.size⟩)
  rw [List.length_map] at hlt hadded
  refine ⟨initial_addAll.trans h.initial_eq, hadded.trans ?_, fun ha => (h.built ha).addAll hlt _⟩
  rw [List.map_append, List.append_assoc, List.append_assoc]
  rfl

theorem Filling.skip {done rest : List State} {s : State} (h : Filling a done (s :: rest) b)
    (hs : (gapsFrom 0 s.transitions).isEmpty = true) : Filling a (done ++ [s]) rest b := by
  refine ⟨h.initial_eq, h.toList_eq.trans ?_, h.built⟩
  rw [List.map_append, List.map_singleton, fill_of_isEmpty hs]
  simp

/-- Nothing was missing so far, or the sink is there. -/
def Passed (a : Automaton) (done : List State) (result : Automaton × Option Nat) : Prop :=
  (∀ s ∈ done, (gapsFrom 0 s.transitions).isEmpty = true) ∧ result = (a, none) ∨
    (∃ s ∈ done, ¬ (gapsFrom 0 s.transitions).isEmpty = true) ∧ result.2 = some a.size ∧
      ∀ rest, a.states.toList = done ++ rest → Filling a done rest result.1

theorem Valid.passed_fillState (ha : a.Valid) {done rest : List State} {s : State}
    {result : Automaton × Option Nat} (hsplit : a.states.toList = done ++ s :: rest)
    (h : Passed a done result) : Passed a (done ++ [s]) (fillState result done.length s) := by
  have hs : Ascends Transition.order s.transitions := ((valid_iff.mp ha).2 s (hsplit ▸ by simp)).1
  have hnext : ∀ {rest'}, a.states.toList = done ++ [s] ++ rest' → a.states.toList = done ++ s :: rest' :=
    fun h => h.trans (by simp)
  rw [fillState]
  dsimp only
  by_cases hgap : (gapsFrom 0 s.transitions).isEmpty = true
  · rw [if_pos hgap]
    obtain ⟨hdone, hresult⟩ | ⟨⟨u, hu, hmissing⟩, hsink, hfilling⟩ := h
    · exact .inl ⟨List.forall_mem_append.mpr ⟨hdone, by simpa using hgap⟩, hresult⟩
    · exact .inr ⟨⟨u, List.mem_append_left _ hu, hmissing⟩, hsink, fun rest' hrest' =>
        (hfilling _ (hnext hrest')).skip hgap⟩
  · rw [if_neg hgap]
    have hmissing : ∃ u ∈ done ++ [s], ¬ (gapsFrom 0 u.transitions).isEmpty = true :=
      ⟨s, by simp, hgap⟩
    obtain ⟨hdone, rfl⟩ | ⟨-, hsink, hfilling⟩ := h
    · exact .inr ⟨hmissing, rfl, fun rest' hrest' => (filling_start (hnext hrest') hdone).addAll hs⟩
    · rw [hsink]
      exact .inr ⟨hmissing, rfl, fun rest' hrest' => (hfilling _ (hnext hrest')).addAll hs⟩

/-- **Passing the states changes nothing as long as nothing is missing.** -/
theorem Valid.filled_cases (ha : a.Valid) : a.isComplete = true ∧ a.filled = a ∨
    a.isComplete = false ∧ Filling a a.states.toList [] a.filled := by
  have hcomplete : a.isComplete = true ↔
      ∀ s ∈ a.states.toList, (gapsFrom 0 s.transitions).isEmpty = true := by
    simp only [isComplete, coversFrom_eq_isEmpty, List.all_eq_true]
  have hpassed : Passed a a.states.toList (a.states.toList.zipIdx.foldl
      (fun result entry => fillState result entry.2 entry.1) (a, none)) :=
    foldl_zipIdx_induction (Passed a) (.inl ⟨by simp, rfl⟩) ha.passed_fillState
  rw [← Bool.not_eq_true, hcomplete, filled]
  obtain ⟨hall, hresult⟩ | ⟨⟨s, hs, hmissing⟩, -, hfilling⟩ := hpassed
  · exact .inl ⟨hall, by rw [hresult]⟩
  · exact .inr ⟨fun hall => hmissing (hall s hs), hfilling [] (List.append_nil _).symm⟩

/-! ## Outcomes -/

/-- **Only the mark decides whether completion is refused.** -/
theorem outcome_totalize (a : Automaton) : a.totalize.outcome =
    if a.deterministic then .ok a.filled else .error .notDeterministic := by
  unfold totalize
  cases a.deterministic <;> rfl

/-- **Only the check decides whether a sink is added.** -/
theorem WellFormed.filled_eq (ha : a.WellFormed) :
    a.filled = if a.isComplete then a else a.completed := by
  obtain ⟨hcomplete, heq⟩ | ⟨hcomplete, hfilling⟩ := ha.toValid.filled_cases
  · rw [hcomplete, heq, if_pos rfl]
  · have hstates : a.filled.states = a.completed.states :=
      congrArg List.toArray (hfilling.toList_eq.trans (by rw [List.append_nil]))
    rw [hcomplete, if_neg Bool.false_ne_true, (hfilling.built ha).eq_ofStates, hstates,
      hfilling.initial_eq]
    · rfl
    · intro p t ht
      rw [transitions, state_congr hstates] at ht
      exact (ha.toValid.completed.proper p t ht).min_le_max

/-- Without a truthful mark the states are still those of the completed automaton. -/
theorem Valid.filled (ha : a.Valid) : a.filled.Valid := by
  obtain ⟨-, heq⟩ | ⟨-, hfilling⟩ := ha.filled_cases
  · exact heq.symm ▸ ha
  · exact ha.completed.congr
      (congrArg List.toArray (hfilling.toList_eq.trans (by rw [List.append_nil]))).symm
      hfilling.initial_eq.symm

theorem totalize_eq_ok (h : a.totalize.outcome = .ok b) : a.deterministic = true ∧ b = a.filled := by
  rw [outcome_totalize] at h
  split at h
  · exact ⟨‹_›, (Except.ok.inj h).symm⟩
  · cases h

/-- What completion returns was complete before or is the completed automaton. -/
theorem WellFormed.totalize_cases (ha : a.WellFormed) (h : a.totalize.outcome = .ok b) :
    a.deterministic = true ∧ (a.isComplete = true ∧ b = a ∨ a.isComplete = false ∧ b = a.completed) := by
  obtain ⟨hdet, rfl⟩ := totalize_eq_ok h
  refine ⟨hdet, ?_⟩
  rw [ha.filled_eq]
  cases a.isComplete
  · exact .inr ⟨rfl, rfl⟩
  · exact .inl ⟨rfl, rfl⟩

theorem WellFormed.separated_totalize (ha : a.WellFormed) (h : a.totalize.outcome = .ok b) :
    b.Separated := by
  obtain ⟨hdet, ⟨-, rfl⟩ | ⟨-, rfl⟩⟩ := ha.totalize_cases h
  · exact ha.separated hdet
  · exact ha.toValid.separated_completed (ha.separated hdet)

/-- Totalizing gives each word one state to end in and keeps the language. -/
theorem WellFormed.totalize (ha : a.WellFormed) (h : a.totalize.outcome = .ok b) :
    b.WellFormed ∧ b.Functional ∧ b.Total ∧ b.language = a.language := by
  obtain ⟨hdet, ⟨hcomplete, rfl⟩ | ⟨-, rfl⟩⟩ := ha.totalize_cases h
  · exact ⟨ha, ha.toValid.functional (ha.separated hdet), ha.toValid.isComplete_iff_total.mp hcomplete,
      rfl⟩
  · have hs := ha.separated hdet
    exact ⟨wellFormed_ofStates ha.toValid.completed, ha.toValid.functional_completed hs,
      ha.toValid.total_completed hs, ha.toValid.residual_completed hs⟩

/-- What was there is there still, under the same numbers, and one rejecting state at most comes behind
it, which is where everything else leads. -/
structure Extends (a b : Automaton) : Prop where
  initial_eq : b.initial = a.initial
  accept_eq : ∀ q < a.size, b.isAccepting q = a.isAccepting q
  transitions_sub : ∀ q < a.size, a.transitions q ⊆ b.transitions q
  added : ∀ q < a.size, ∀ t ∈ b.transitions q, t ∈ a.transitions q ∨ t.target = a.size
  sink : b.size = a.size ∨
    b.size = a.size + 1 ∧ b.state a.size = { accept := false, transitions := [⟨.full, a.size⟩] }

theorem Extends.refl (a : Automaton) : a.Extends a :=
  ⟨rfl, fun _ _ => rfl, fun _ _ => List.Subset.refl _, fun _ _ _ ht => .inl ht, .inl rfl⟩

theorem extends_completed (a : Automaton) : a.Extends a.completed where
  initial_eq := rfl
  accept_eq _ _ := isAccepting_completed
  transitions_sub q hq t ht := by
    rw [transitions, state_completed_of_lt hq]
    exact mem_fill.mpr (.inr ht)
  added q hq t ht := by
    rw [transitions, state_completed_of_lt hq] at ht
    exact (mem_fill.mp ht).symm.imp_right And.right
  sink := .inr ⟨size_completed, state_completed_sink⟩

/-- **Completion is conservative.** It is refused where the determinism mark is missing. Otherwise each
state goes on with each symbol afterwards, none with two of them, what was there is kept, and nothing
changes exactly where nothing was missing. -/
theorem WellFormed.completion_exact (ha : a.WellFormed) :
    (a.totalize.outcome = .error .notDeterministic ↔ a.deterministic = false) ∧
    (a.deterministic = true → ∃ b, a.totalize.outcome = .ok b ∧
      b.deterministic = true ∧ b.Separated ∧ b.isComplete = true ∧ b.language = a.language ∧
      a.Extends b ∧ (b = a ↔ a.isComplete = true)) ∧
    ∀ x : Automaton, x.Valid → (x.isComplete = true ↔
      ∀ p < x.size, ∀ c ≤ maxSymbol, ∃ t ∈ x.transitions p, t.interval.contains c = true) := by
  refine ⟨?_, fun hdet => ?_, fun x hx => ?_⟩
  · rw [outcome_totalize]
    cases a.deterministic <;> simp
  · have hok : a.totalize.outcome = .ok (if a.isComplete then a else a.completed) := by
      rw [outcome_totalize, if_pos hdet, ha.filled_eq]
    obtain ⟨hwell, -, htotal, hlanguage⟩ := ha.totalize hok
    have hs := ha.separated_totalize hok
    refine ⟨_, hok, hwell.deterministic_iff.mpr hs, hs, hwell.toValid.isComplete_iff_total.mpr htotal,
      hlanguage, ?_⟩
    split
    · exact ⟨.refl a, iff_of_true rfl ‹_›⟩
    · exact ⟨a.extends_completed, iff_of_false a.completed_ne ‹_›⟩
  · rw [hx.isComplete_iff_total]
    refine forall₂_congr fun p _ => forall₂_congr fun c _ => ?_
    constructor
    · intro ⟨_, t, ht, hc, _⟩
      exact ⟨t, ht, hc⟩
    · intro ⟨t, ht, hc⟩
      exact ⟨_, t, ht, hc, rfl⟩

/-- Nothing is missing from state 1. From state 0 no symbol below `b`, between `d` and `x`, or above `z`
leads on. -/
def gappy : Automaton :=
  .ofStates [⟨false, [⟨⟨98, 100⟩, 1⟩, ⟨⟨120, 122⟩, 0⟩]⟩, ⟨true, [⟨.full, 1⟩]⟩] 0

theorem completion_gappy : gappy.WellFormed ∧ gappy.isComplete = false ∧
    (∃ b, gappy.totalize.outcome = .ok b ∧ b.deterministic = true ∧ b.isComplete = true ∧
      b.language = gappy.language ∧ b ≠ gappy ∧ b.size = 3 ∧
      b.transitions 0 = [⟨⟨0, 97⟩, 2⟩, ⟨⟨98, 100⟩, 1⟩, ⟨⟨101, 119⟩, 2⟩, ⟨⟨120, 122⟩, 0⟩,
        ⟨⟨123, maxSymbol⟩, 2⟩]) ∧
    ∃ t ∈ anyString.transitions 0, t.interval.contains 0xD800 = true := by
  have ha : gappy.WellFormed := wellFormed_ofStates (by decide)
  have hgap : gappy.isComplete = false := by decide
  obtain ⟨-, hok, hcheck⟩ := ha.completion_exact
  obtain ⟨b, hb, hdet, -, hcomplete, hlanguage, -, hsame⟩ := hok rfl
  have hcompleted : gappy.completed = b :=
    Except.ok.inj ((show gappy.totalize.outcome = .ok gappy.completed by rfl).symm.trans hb)
  have hne : b ≠ gappy := fun h => by
    rw [hsame.mp h] at hgap
    cases hgap
  refine ⟨ha, hgap, ⟨b, hb, hdet, hcomplete, hlanguage, hne, ?_, ?_⟩, ?_⟩
  · rw [← hcompleted]
    rfl
  · rw [← hcompleted]
    decide
  · exact (hcheck anyString (by decide)).mp (by decide) 0 (by decide) 0xD800 (by decide)

end Automaton

end IntervalAutomata
