import IntervalAutomata.Proofs.Reduce

/-! # The reduced form

Lined up by target, the entries that continue one another stand side by side, so joining them leaves a
symbol between any two entries with one target. Such entries are the longest runs of symbols that lead
to their target, and the runs can be read off the moves. So automata that make the same moves reduce to
the same lists, and entries of a reduced list overlap only where one symbol has two targets. -/

namespace IntervalAutomata

open Automaton

variable {l l' : List Transition} {last t u : Transition} {s s' : State} {c : Nat}

/-! ## Entries that keep apart -/

/-- By target, then by start. -/
def Precedes (s t : Transition) : Prop :=
  s.target < t.target ∨ s.target = t.target ∧ s.interval.min ≤ t.interval.min

theorem Precedes.trans (h : Precedes last t) (h' : Precedes t u) : Precedes last u := by
  unfold Precedes at *
  omega

theorem precedes_byTarget (l : List Transition) : (ascending byTarget l).Pairwise Precedes := by
  have hascends : Ascends byTarget (ascending byTarget l) := ascends_ascending l
  refine hascends.imp fun hlt => ?_
  obtain hlt | ⟨htarget, hlt⟩ := byTarget_lt_iff.mp hlt
  · exact .inl hlt
  · obtain hlt | ⟨heq, -⟩ := Interval.order_lt_iff.mp hlt
    · exact .inr ⟨htarget, Nat.le_of_lt hlt⟩
    · exact .inr ⟨htarget, Nat.le_of_eq heq⟩

theorem precedes_of_mem_coalesceFrom (h : (last :: l).Pairwise Precedes) :
    ∀ u ∈ coalesceFrom last l, Precedes last u := by
  have hself : Precedes last last := .inr ⟨rfl, Nat.le_refl _⟩
  fun_induction coalesceFrom last l with
  | case1 => simpa using hself
  | case2 last t rest _ ih =>
    -- the joined entry starts where `last` does and has its target
    obtain ⟨hlast, hrest⟩ := List.pairwise_cons.mp h
    exact ih (List.pairwise_cons.mpr ⟨fun u hu => hlast u (List.mem_cons_of_mem t hu),
      (List.pairwise_cons.mp hrest).2⟩) hself
  | case3 last t rest _ ih =>
    obtain ⟨hlast, hrest⟩ := List.pairwise_cons.mp h
    refine List.forall_mem_cons.mpr ⟨hself, fun u hu => ?_⟩
    exact (hlast t List.mem_cons_self).trans (ih hrest (.inr ⟨rfl, Nat.le_refl _⟩) u hu)

/-- Where joining stops, a symbol lies between the two entries. -/
theorem lt_of_not_touches (hmin : last.interval.min ≤ t.interval.min) (ht : t.interval.Proper)
    (h : last.interval.touches t.interval = false) : last.interval.max + 1 < t.interval.min := by
  have hproper := ht.min_le_max
  have hmax := ht.max_le
  simp only [Interval.touches, Interval.overlaps, Interval.abuts, Bool.or_eq_false_iff,
    Bool.and_eq_false_iff, decide_eq_false_iff_not, beq_eq_false_iff_ne] at h
  omega

theorem detached_coalesceFrom (h : (last :: l).Pairwise Precedes)
    (hp : ∀ t ∈ last :: l, t.interval.Proper) : (coalesceFrom last l).Pairwise Detached := by
  fun_induction coalesceFrom last l with
  | case1 => exact List.pairwise_singleton _ _
  | case2 last t rest _ ih =>
    obtain ⟨hlast, hrest⟩ := List.pairwise_cons.mp h
    exact ih (List.pairwise_cons.mpr ⟨fun u hu => hlast u (List.mem_cons_of_mem t hu),
      (List.pairwise_cons.mp hrest).2⟩) (proper_join hp)
  | case3 last t rest hjoin ih =>
    obtain ⟨hlast, hrest⟩ := List.pairwise_cons.mp h
    have hnext := hlast t List.mem_cons_self
    refine List.pairwise_cons.mpr ⟨fun u hu htarget => .inl ?_,
      ih hrest fun v hv => hp v (List.mem_cons_of_mem _ hv)⟩
    have hu : Precedes t u := precedes_of_mem_coalesceFrom hrest u hu
    -- `t` stands between two entries with one target, so it has this target too
    have hsame : t.target = last.target := by
      unfold Precedes at hnext hu
      omega
    have htouches : last.interval.touches t.interval = false :=
      Bool.eq_false_of_not_eq_true fun htouches =>
        hjoin (Bool.and_eq_true_iff.mpr ⟨decide_eq_true hsame, htouches⟩)
    unfold Precedes at hnext hu
    have := lt_of_not_touches (by omega) (hp t (by simp)) htouches
    omega

/-- **Reduced transitions with one target neither overlap nor touch.** -/
theorem detached_reducedState (hp : ∀ t ∈ s.transitions, t.interval.Proper) :
    (reducedState s).transitions.Pairwise Detached := by
  have hjoined : (coalesce (ascending byTarget s.transitions)).Pairwise Detached := by
    have hline := precedes_byTarget s.transitions
    have hproper : ∀ t ∈ ascending byTarget s.transitions, t.interval.Proper :=
      fun t ht => hp t (mem_ascending.mp ht)
    cases hl : ascending byTarget s.transitions with
    | nil => exact List.Pairwise.nil
    | cons t l =>
      rw [hl] at hline hproper
      exact detached_coalesceFrom hline hproper
  have hascends : Ascends Transition.order (reducedState s).transitions := ascends_ascending _
  refine hascends.imp_of_mem fun ht hu hlt => ?_
  exact hjoined.forall (mem_ascending.mp ht) (mem_ascending.mp hu) (ne_of_lt_cmp hlt)

/-! ## Runs -/

/-- A longest run of symbols that lead to the target. -/
structure Run (l : List Transition) (t : Transition) : Prop where
  min_le_max : t.interval.min ≤ t.interval.max
  moves : ∀ c, t.interval.contains c = true → Moves l c t.target
  stops : ¬ Moves l (t.interval.max + 1) t.target
  starts : ∀ c, c + 1 = t.interval.min → ¬ Moves l c t.target

theorem Run.congr (h : Run l t) (hmoves : ∀ c q, Moves l c q ↔ Moves l' c q) : Run l' t where
  min_le_max := h.min_le_max
  moves c hc := (hmoves c _).mp (h.moves c hc)
  stops := mt (hmoves _ _).mpr h.stops
  starts c hc := mt (hmoves c _).mpr (h.starts c hc)

/-- Next to a detached entry no symbol leads to its target. -/
theorem contains_of_moves (hl : l.Pairwise Detached) (hp : ∀ t ∈ l, t.interval.Proper) (ht : t ∈ l)
    (hc : t.interval.min ≤ c + 1 ∧ c ≤ t.interval.max + 1) (hmoves : Moves l c t.target) :
    t.interval.contains c = true := by
  obtain ⟨u, hu, huc, htarget⟩ := hmoves
  by_cases hut : u = t
  · exact hut ▸ huc
  · have hfar := hl.forall hu ht hut htarget
    have := (hp t ht).min_le_max
    rw [Interval.contains_iff] at huc
    omega

/-- **Detached entries are the runs of the moves.** -/
theorem mem_iff_run (hl : l.Pairwise Detached) (hp : ∀ t ∈ l, t.interval.Proper) :
    t ∈ l ↔ Run l t := by
  constructor
  · intro ht
    have hle := (hp t ht).min_le_max
    refine ⟨hle, fun c hc => ⟨t, ht, hc, rfl⟩, fun hmoves => ?_, fun c hc hmoves => ?_⟩
    · have := contains_of_moves hl hp ht (by omega) hmoves
      rw [Interval.contains_iff] at this
      omega
    · have := contains_of_moves hl hp ht (by omega) hmoves
      rw [Interval.contains_iff] at this
      omega
  · intro h
    have hle := h.min_le_max
    obtain ⟨u, hu, hmin, htarget⟩ := h.moves t.interval.min
      (Interval.contains_iff.mpr ⟨Nat.le_refl _, hle⟩)
    rw [Interval.contains_iff] at hmin
    have hcover : ∀ c, u.interval.contains c = true → Moves l c t.target := fun c hc =>
      ⟨u, hu, hc, htarget⟩
    -- neither of the two intervals can end or start inside the other one
    have hupper : t.interval.max ≤ u.interval.max := by
      by_contra hlt
      have hnext := h.moves (u.interval.max + 1) (Interval.contains_iff.mpr (by omega))
      have := contains_of_moves hl hp hu (by omega) (htarget ▸ hnext)
      rw [Interval.contains_iff] at this
      omega
    have hlower : u.interval.max ≤ t.interval.max := by
      by_contra hlt
      exact h.stops (hcover _ (Interval.contains_iff.mpr (by omega)))
    have hstart : t.interval.min ≤ u.interval.min := by
      by_contra hlt
      exact h.starts (t.interval.min - 1) (by omega)
        (hcover _ (Interval.contains_iff.mpr (by omega)))
    have heq : u = t := by
      obtain ⟨⟨_, _⟩, _⟩ := u
      obtain ⟨⟨_, _⟩, _⟩ := t
      dsimp only at hmin hupper hlower hstart htarget
      rw [htarget, Nat.le_antisymm hmin.1 hstart, Nat.le_antisymm hlower hupper]
    exact heq ▸ hu

/-- A reduced state is determined by its acceptance and its moves. -/
theorem reducedState_congr (hp : ∀ t ∈ s.transitions, t.interval.Proper)
    (hp' : ∀ t ∈ s'.transitions, t.interval.Proper) (haccept : s.accept = s'.accept)
    (hmoves : ∀ c q, Moves s.transitions c q ↔ Moves s'.transitions c q) :
    reducedState s = reducedState s' := by
  have hsame : ∀ c q, Moves (reducedState s).transitions c q ↔
      Moves (reducedState s').transitions c q := fun c q => by
    rw [moves_reducedState, moves_reducedState, hmoves]
  have hruns : ∀ t, t ∈ (reducedState s).transitions ↔ t ∈ (reducedState s').transitions := by
    intro t
    rw [mem_iff_run (detached_reducedState hp) (proper_reducedState hp),
      mem_iff_run (detached_reducedState hp') (proper_reducedState hp')]
    exact ⟨fun h => h.congr hsame, fun h => h.congr fun c q => (hsame c q).symm⟩
  have hascends : ∀ s : State, Ascends Transition.order (reducedState s).transitions := fun s =>
    ascends_ascending _
  exact congrArg₂ State.mk haccept ((hascends s).eq_of_mem_iff (hascends s') hruns)

namespace Automaton

variable {a b : Automaton} {p q : Nat}

/-! ## Automata -/

theorem Valid.isAccepting_reduce (ha : a.Valid) (p : Nat) :
    a.reduce.isAccepting p = a.isAccepting p := by
  rw [isAccepting, ha.state_reduce]
  rfl

theorem Valid.detached_reduce (ha : a.Valid) (p : Nat) :
    (a.reduce.transitions p).Pairwise Detached := by
  rw [transitions, ha.state_reduce]
  exact detached_reducedState (ha.proper p)

/-- Entries of a reduced list overlap only where a symbol has two targets. -/
theorem Valid.separated_reduce_iff (ha : a.Valid) : a.reduce.Separated ↔ a.Functional := by
  have hvalid := ha.reduce
  have hsame : a.reduce.Functional ↔ a.Functional := by
    simp only [Functional, ha.step_reduce]
  rw [← hsame]
  refine ⟨hvalid.functional, fun hfunctional => separated_of_apart fun p => ?_⟩
  refine apart_of_unique (hvalid.ascends p) (hvalid.proper p) fun t ht u hu c htc huc => ?_
  have htarget := hfunctional p c _ _ ⟨t, ht, htc, rfl⟩ ⟨u, hu, huc, rfl⟩
  by_contra hne
  have hfar := (ha.detached_reduce p).forall ht hu hne htarget
  rw [Interval.contains_iff] at htc huc
  omega

theorem Valid.deterministic_reduce_iff (ha : a.Valid) :
    a.reduce.deterministic = true ↔ a.Functional := by
  have hvalid : (ofStates (a.states.toList.map reducedState) a.initial).Valid :=
    ha.reduced.congr rfl rfl
  rw [← ha.separated_reduce_iff, ha.reduce_eq]
  exact (deterministic_ofStates hvalid).trans ⟨fun h => h.congr rfl, fun h => h.congr rfl⟩

/-- The same states with the same moves have the same reduced states. -/
theorem Valid.reducedStates_eq (ha : a.Valid) (hb : b.Valid) (hsize : b.size = a.size)
    (haccept : ∀ p, b.isAccepting p = a.isAccepting p)
    (hstep : ∀ p c q, b.Step p c q ↔ a.Step p c q) :
    b.states.toList.map reducedState = a.states.toList.map reducedState := by
  refine List.ext_getElem (by simpa [size] using hsize) fun i hi hi' => ?_
  rw [List.getElem_map, List.getElem_map, Array.getElem_toList, Array.getElem_toList,
    getElem_states, getElem_states]
  exact reducedState_congr (hb.proper i) (ha.proper i) (haccept i) (hstep i)

/-- **Reducing is a normal form of the moves.** It keeps states and moves and leaves no two entries with
one target that overlap or touch. Its result is marked deterministic exactly when no symbol has two
targets, and depends on states and moves alone. -/
theorem Valid.reduce_normal_form (ha : a.Valid) :
    a.reduce.size = a.size ∧ a.reduce.initial = a.initial ∧
    (∀ p, a.reduce.isAccepting p = a.isAccepting p) ∧
    (∀ p c q, a.reduce.Step p c q ↔ a.Step p c q) ∧
    (∀ p, (a.reduce.transitions p).Pairwise fun t u => t.target = u.target →
      t.interval.overlaps u.interval = false ∧ t.interval.abuts u.interval = false ∧
        u.interval.abuts t.interval = false) ∧
    (a.reduce.deterministic = true ↔ ∀ p c q r, a.Step p c q → a.Step p c r → q = r) ∧
    (∀ b : Automaton, b.Valid → b.size = a.size → b.initial = a.initial →
      (∀ p, b.isAccepting p = a.isAccepting p) → (∀ p c q, b.Step p c q ↔ a.Step p c q) →
        b.reduce.states = a.reduce.states ∧ b.reduce.initial = a.reduce.initial ∧
          b.reduce.deterministic = a.reduce.deterministic) ∧
    a.reduce.reduce = a.reduce := by
  have hproper := ha.reduce.proper
  have hinitial : ∀ {b : Automaton}, b.Valid → b.reduce.initial = b.initial := fun hb => by
    rw [hb.reduce_eq]
    rfl
  refine ⟨ha.size_reduce, hinitial ha, ha.isAccepting_reduce, fun _ _ _ => ha.step_reduce, fun p => ?_,
    ha.deterministic_reduce_iff, fun b hb hsize hsame haccept hstep => ?_, ?_⟩
  · refine (ha.detached_reduce p).imp_of_mem fun {t u} ht hu hfar htarget => ?_
    have hle := (hproper p t ht).min_le_max
    have hle' := (hproper p u hu).min_le_max
    have hfar := hfar htarget
    simp only [Interval.overlaps_eq_false_iff, Interval.abuts, Bool.and_eq_false_iff,
      beq_eq_false_iff_ne]
    omega
  · have hstates : b.reduce.states = a.reduce.states := by
      rw [hb.reduce_eq, ha.reduce_eq]
      exact congrArg List.toArray (ha.reducedStates_eq hb hsize haccept hstep)
    refine ⟨hstates, (hinitial hb).trans (hsame.trans (hinitial ha).symm), ?_⟩
    rw [Bool.eq_iff_iff, ha.deterministic_reduce_iff, hb.deterministic_reduce_iff]
    simp only [Functional, hstep]
  · have hlist := ha.reducedStates_eq ha.reduce ha.size_reduce ha.isAccepting_reduce
      fun _ _ _ => ha.step_reduce
    have hagain : a.reduce.reduced =
        { ofStates (a.states.toList.map reducedState) a.reduce.initial with
          minimal := a.reduce.minimal, singleton := a.reduce.singleton } := by
      rw [Automaton.reduced, hlist]
    rw [ha.reduce.reduce_eq, hagain, ha.reduce_eq]
    rfl

/-- On the way to state 1 intervals overlap, lie in one another and touch, and one that leads to state 2
stands between them. -/
def scattered : Automaton :=
  .ofStates
    [⟨false, [⟨⟨97, 100⟩, 1⟩, ⟨⟨98, 98⟩, 1⟩, ⟨⟨99, 102⟩, 2⟩, ⟨⟨99, 104⟩, 1⟩, ⟨⟨105, 106⟩, 1⟩,
      ⟨⟨108, 110⟩, 1⟩]⟩,
    ⟨true, []⟩, ⟨false, [⟨⟨5, maxSymbol⟩, 1⟩, ⟨⟨maxSymbol, maxSymbol⟩, 1⟩]⟩] 0

/-- The same moves, cut elsewhere. -/
def gathered : Automaton :=
  .ofStates
    [⟨false, [⟨⟨97, 103⟩, 1⟩, ⟨⟨99, 100⟩, 2⟩, ⟨⟨101, 102⟩, 2⟩, ⟨⟨104, 106⟩, 1⟩,
      ⟨⟨108, 110⟩, 1⟩]⟩,
    ⟨true, []⟩, ⟨false, [⟨⟨5, 900⟩, 1⟩, ⟨⟨901, maxSymbol⟩, 1⟩]⟩] 0

theorem step_gathered (p c q : Nat) : gathered.Step p c q ↔ scattered.Step p c q := by
  match p with
  | 0 | 2 =>
    simp only [Step, transitions, state, gathered, scattered, ofStates, Array.getD_eq_getD_getElem?,
      List.getElem?_toArray, List.getElem?_cons_zero, List.getElem?_cons_succ, Option.getD_some,
      List.exists_mem_cons_iff, List.not_mem_nil, false_and, exists_false, or_false,
      Interval.contains_iff, maxSymbol]
    omega
  | 1 => exact Iff.rfl
  | _ + 3 => exact Iff.rfl

theorem reduce_scattered : scattered.Valid ∧ gathered.Valid ∧
    gathered.reduce.states = scattered.reduce.states ∧
    scattered.reduce.transitions 0 = [⟨⟨97, 106⟩, 1⟩, ⟨⟨99, 102⟩, 2⟩, ⟨⟨108, 110⟩, 1⟩] ∧
    scattered.reduce.deterministic = false ∧ scattered.reduce.reduce = scattered.reduce := by
  have ha : scattered.Valid := by decide
  have hb : gathered.Valid := by decide
  obtain ⟨-, -, -, -, -, hmark, hsame, hagain⟩ := ha.reduce_normal_form
  have haccept : ∀ p, gathered.isAccepting p = scattered.isAccepting p
    | 0 | 1 | 2 => rfl
    | _ + 3 => rfl
  refine ⟨ha, hb, (hsame _ hb rfl rfl haccept step_gathered).1, by decide, ?_, hagain⟩
  rw [← Bool.not_eq_true, hmark]
  -- both intervals hold 99
  intro h
  cases h 0 99 1 2 ⟨⟨⟨97, 100⟩, 1⟩, by decide, rfl, rfl⟩ ⟨⟨⟨99, 102⟩, 2⟩, by decide, rfl, rfl⟩

end Automaton

end IntervalAutomata
