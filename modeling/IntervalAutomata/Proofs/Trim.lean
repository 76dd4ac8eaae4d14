import IntervalAutomata.Operation.Trim
import IntervalAutomata.Proofs.Arrays
import IntervalAutomata.Proofs.Assembly

/-! # Retaining and trimming

Retaining a list of states renumbers them by position and keeps the transitions between them. When the
list has every state that matters, what remains accepts the same words. Trimming retains the reachable
live states, so unless nothing is accepted every state that remains is on an accepted path. -/

namespace IntervalAutomata.Automaton

variable {a : Automaton} {order : List Nat} {i j c p q n : Nat} {w : List Nat}

/-! ## Places -/

private theorem getD_setIfInBounds_some {places : Array (Option Nat)} {k : Nat} :
    (places.setIfInBounds p (some k)).getD q none = some i ↔
      p = q ∧ q < places.size ∧ k = i ∨ p ≠ q ∧ places.getD q none = some i := by
  rw [getD_setIfInBounds]
  by_cases hpq : p = q
  · subst hpq
    by_cases hp : p < places.size <;> simp [hp]
  · simp [hpq]

private theorem places_fold (hnodup : order.Nodup) (k : Nat) (places : Array (Option Nat)) :
    ((order.zipIdx k).foldl (fun places entry => places.setIfInBounds entry.1 (some entry.2))
      places).getD q none = some i ↔
      (q < places.size ∧ k ≤ i ∧ order[i - k]? = some q) ∨
        q ∉ order ∧ places.getD q none = some i := by
  induction order generalizing k places with
  | nil => simp
  | cons p order ih =>
    obtain ⟨hp, hnodup⟩ := List.nodup_cons.mp hnodup
    rw [List.zipIdx_cons, List.foldl_cons, ih hnodup, Array.size_setIfInBounds,
      getD_setIfInBounds_some, List.mem_cons, not_or, eq_comm (a := q) (b := p)]
    by_cases hi : i = k
    · subst hi
      simp only [Nat.sub_self, List.getElem?_cons_zero, Option.some.injEq]
      have hsucc : ¬ i + 1 ≤ i := Nat.not_succ_le_self i
      by_cases hpq : p = q
      · subst hpq; simp [hp, hsucc]
      · simp [hpq, hsucc]
    · by_cases hki : k ≤ i
      · have hindex : i - k = (i - (k + 1)) + 1 := by omega
        have hsucc : k + 1 ≤ i := by omega
        rw [hindex, List.getElem?_cons_succ]
        simp only [hki, hsucc, Ne.symm hi, true_and, and_false, false_or]
        by_cases hpq : p = q
        · subst hpq; simp [hp]
        · simp [hpq]
      · have hsucc : ¬ k + 1 ≤ i := by omega
        simp only [hki, hsucc, Ne.symm hi, false_and, and_false, false_or]
        tauto

/-- Without repetitions a state goes to its one position. -/
theorem places_eq_some_iff (hnodup : order.Nodup) :
    (places order n).getD q none = some i ↔ q < n ∧ order[i]? = some q := by
  rw [places, places_fold hnodup, getD_replicate]
  simp

private theorem lt_of_places_fold {k : Nat} {places : Array (Option Nat)}
    (h : ((order.zipIdx k).foldl (fun places entry => places.setIfInBounds entry.1 (some entry.2))
      places).getD q none = some i) : i < k + order.length ∨ places.getD q none = some i := by
  induction order generalizing k places with
  | nil => exact .inr h
  | cons p order ih =>
    rw [List.zipIdx_cons, List.foldl_cons] at h
    rw [List.length_cons]
    obtain hlt | h := ih h
    · exact .inl (by omega)
    · obtain ⟨-, -, rfl⟩ | ⟨-, h⟩ := getD_setIfInBounds_some.mp h
      · exact .inl (by omega)
      · exact .inr h

/-- Even with repetitions a state goes to a position. -/
theorem lt_of_places (h : (places order n).getD q none = some i) : i < order.length := by
  obtain hlt | h := lt_of_places_fold h
  · rwa [Nat.zero_add] at hlt
  · rw [getD_replicate] at h
    cases h

/-! ## Retained states -/

/-- States that are listed once each, the initial one among them. -/
structure Selects (a : Automaton) (order : List Nat) : Prop where
  nodup : order.Nodup
  lt : ∀ q ∈ order, q < a.size
  initial_mem : a.initial ∈ order

theorem state_retain (hi : order[i]? = some p) :
    (a.retain order).state i = relocate (places order a.size) (a.state p) := by
  rw [retain, state_ofStates, List.getD_eq_getElem?_getD, List.getElem?_map, hi]
  rfl

@[simp] theorem size_retain : (a.retain order).size = order.length := by
  rw [retain, size_ofStates, List.length_map]

theorem transitions_retain (hi : order[i]? = some p) :
    (a.retain order).transitions i = ascending Transition.order ((a.transitions p).filterMap fun t =>
      ((places order a.size).getD t.target none).map fun place => ⟨t.interval, place⟩) := by
  rw [transitions, state_retain hi]
  rfl

theorem transitions_retain_eq_nil (hi : order[i]? = none) : (a.retain order).transitions i = [] := by
  rw [transitions, state_of_size_le]
  rw [size_retain]
  exact List.getElem?_eq_none_iff.mp hi

theorem Selects.initial_retain (h : a.Selects order) :
    order[(a.retain order).initial]? = some a.initial := by
  obtain ⟨i, hi⟩ := List.mem_iff_getElem?.mp h.initial_mem
  have hplace := (places_eq_some_iff h.nodup).mpr ⟨h.lt _ h.initial_mem, hi⟩
  rw [retain, initial_ofStates, hplace, Option.getD_some]
  exact hi

theorem Selects.mem_transitions_retain (h : a.Selects order) {t : Transition} :
    t ∈ (a.retain order).transitions i ↔ ∃ p q, order[i]? = some p ∧ order[t.target]? = some q ∧
      (⟨t.interval, q⟩ : Transition) ∈ a.transitions p := by
  rcases hi : order[i]? with _ | p
  · rw [transitions_retain_eq_nil hi]
    simp
  · rw [transitions_retain hi]
    simp only [mem_ascending, List.mem_filterMap, Option.map_eq_some_iff,
      places_eq_some_iff h.nodup]
    constructor
    · rintro ⟨s, hs, k, ⟨-, hk⟩, rfl⟩
      exact ⟨p, s.target, rfl, hk, hs⟩
    · intro hex
      obtain ⟨_, q, hp, hq, hmem⟩ := hex
      cases hp
      exact ⟨_, hmem, _, ⟨h.lt q (List.mem_of_getElem? hq), hq⟩, rfl⟩

theorem Selects.step_retain (h : a.Selects order) :
    (a.retain order).Step i c j ↔
      ∃ p q, order[i]? = some p ∧ order[j]? = some q ∧ a.Step p c q := by
  constructor
  · rintro ⟨t, ht, hc, rfl⟩
    obtain ⟨p, q, hp, hq, hmem⟩ := h.mem_transitions_retain.mp ht
    exact ⟨p, q, hp, hq, _, hmem, hc, rfl⟩
  · rintro ⟨p, q, hp, hq, t, ht, hc, rfl⟩
    exact ⟨⟨t.interval, j⟩, h.mem_transitions_retain.mpr ⟨p, _, hp, hq, ht⟩, hc, rfl⟩

theorem isAccepting_retain (hi : order[i]? = some p) :
    (a.retain order).isAccepting i = a.isAccepting p := by
  rw [isAccepting, state_retain hi]
  rfl

/-- Whatever states are retained, and in whatever order, they make an automaton. -/
theorem Valid.retain (ha : a.Valid) (h : order ≠ []) : (a.retain order).Valid := by
  have hlength := List.length_pos_iff.mpr h
  have hmem : ∀ {i t}, t ∈ (a.retain order).transitions i → t.target < order.length ∧
      ∃ p, ∃ s ∈ a.transitions p, s.interval = t.interval := by
    intro i t ht
    rcases hi : order[i]? with _ | p
    · rw [transitions_retain_eq_nil hi] at ht
      cases ht
    · rw [transitions_retain hi, mem_ascending, List.mem_filterMap] at ht
      obtain ⟨s, hs, ht⟩ := ht
      obtain ⟨place, hplace, rfl⟩ := Option.map_eq_some_iff.mp ht
      exact ⟨lt_of_places hplace, p, s, hs, rfl⟩
  refine ⟨?_, fun i t ht => ?_, fun i => ?_, fun i t ht => ?_⟩
  · rw [size_retain, Automaton.retain, initial_ofStates]
    cases hplace : (places order a.size).getD a.initial none with
    | none => exact hlength
    | some place => exact lt_of_places hplace
  · rw [size_retain]
    exact (hmem ht).1
  · rcases hi : order[i]? with _ | p
    · rw [transitions_retain_eq_nil hi]
      exact List.Pairwise.nil
    · rw [transitions_retain hi]
      exact ascends_ascending _
  · obtain ⟨-, p, s, hs, heq⟩ := hmem ht
    exact heq ▸ ha.proper p s hs

/-- **Retaining recomputes the determinism mark** and claims nothing about the language. -/
theorem Valid.wellFormed_retain (ha : a.Valid) (h : order ≠ []) : (a.retain order).WellFormed :=
  wellFormed_ofStates (ha.retain h)

theorem Selects.valid_retain (h : a.Selects order) (ha : a.Valid) : (a.retain order).Valid :=
  ha.retain (List.ne_nil_of_mem h.initial_mem)

theorem Selects.separated_retain (h : a.Selects order) (ha : a.Valid) (hs : a.Separated) :
    (a.retain order).Separated := by
  refine separated_of_apart fun i => ?_
  rcases hi : order[i]? with _ | p
  · rw [transitions_retain_eq_nil hi]
    exact List.Pairwise.nil
  · have hvalid := h.valid_retain ha
    have hkept : Apart ((a.transitions p).filterMap fun t =>
        ((places order a.size).getD t.target none).map fun place => ⟨t.interval, place⟩) := by
      refine (ha.apart hs p).filterMap _ fun s t hst s' hs' t' ht' => ?_
      obtain ⟨_, -, rfl⟩ := Option.map_eq_some_iff.mp hs'
      obtain ⟨_, -, rfl⟩ := Option.map_eq_some_iff.mp ht'
      exact hst
    have hproper := hvalid.proper i
    rw [transitions_retain hi] at hproper ⊢
    rw [(hkept.ascends fun t ht => hproper t (mem_ascending.mpr ht)).ascending_eq]
    exact hkept

/-- What is left accepts the same words as long as no state on an accepted path is missing. -/
theorem Selects.residual_retain (h : a.Selects order)
    (hclosed : ∀ p ∈ order, ∀ c q, a.Step p c q → a.Live q → q ∈ order) (hi : order[i]? = some p) :
    (a.retain order).residual i = a.residual p := by
  ext w
  induction w generalizing i p with
  | nil => rw [nil_mem_residual, nil_mem_residual, isAccepting_retain hi]
  | cons c w ih =>
    simp only [cons_mem_residual, h.step_retain]
    constructor
    · intro ⟨j, ⟨p', q, hi', hj, hs⟩, hw⟩
      rw [hi] at hi'
      cases hi'
      exact ⟨q, hs, (ih hj).mp hw⟩
    · intro ⟨q, hs, hw⟩
      obtain ⟨j, hj⟩ := List.mem_iff_getElem?.mp
        (hclosed p (List.mem_of_getElem? hi) c q hs ⟨w, hw⟩)
      exact ⟨j, ⟨p, q, hi, hj, hs⟩, (ih hj).mpr hw⟩

theorem Live.of_path (hw : a.Path p w q) (hq : a.Live q) : a.Live p := by
  obtain ⟨v, hv⟩ := hq
  exact ⟨w ++ v, append_mem_residual.mpr ⟨q, hw, hv⟩⟩

/-- Paths to live states are kept as well. -/
theorem Selects.retain_path (h : a.Selects order)
    (hclosed : ∀ p ∈ order, ∀ c q, a.Step p c q → a.Live q → q ∈ order) (hi : order[i]? = some p)
    (hj : order[j]? = some q) (hw : a.Path p w q) (hq : a.Live q) : (a.retain order).Path i w j := by
  induction hw generalizing i with
  | nil =>
    rw [path_nil_iff]
    have hlt := (List.getElem?_eq_some_iff.mp hi).1
    exact (List.getElem?_inj hlt h.nodup).mp (hi.trans hj.symm)
  | @cons p c r w q hs hw ih =>
    have hr := hclosed p (List.mem_of_getElem? hi) c r hs (hq.of_path hw)
    obtain ⟨k, hk⟩ := List.mem_iff_getElem?.mp hr
    exact .cons (h.step_retain.mpr ⟨p, r, hi, hk, hs⟩) (ih hk hj hq)

/-! ## Trimming -/

/-- The reachable live states, in the order in which the forward sweep finds them. -/
def useful (a : Automaton) : List Nat := a.reachable.filter a.isLive

theorem Valid.mem_useful (ha : a.Valid) : q ∈ a.useful ↔ a.Reachable q ∧ a.Live q := by
  rw [useful, List.mem_filter, ha.mem_reachable, isLive, ha.live_iff]

theorem Valid.useful_closed (ha : a.Valid) :
    ∀ p ∈ a.useful, ∀ c q, a.Step p c q → a.Live q → q ∈ a.useful := by
  intro p hp c _ hs hq
  obtain ⟨⟨w, hw⟩, -⟩ := ha.mem_useful.mp hp
  exact ha.mem_useful.mpr ⟨⟨w ++ [c], hw.snoc hs⟩, hq⟩

theorem Valid.selects_useful (ha : a.Valid) (hlive : a.Live a.initial) : a.Selects a.useful where
  nodup := ha.nodup_reachable.filter _
  lt _ hq := (ha.mem_useful.mp hq).2.lt
  initial_mem := ha.mem_useful.mpr ⟨⟨[], .nil _⟩, hlive⟩

/-- Trimming retains the useful states unless nothing is accepted. -/
theorem Valid.trim_cases (ha : a.Valid) :
    a.Live a.initial ∧ a.trim = (a.retain a.useful).setSingleton a.singleton ∨
      ¬ a.Live a.initial ∧ a.trim = empty := by
  rw [trim, ← ha.live_iff]
  by_cases h : a.live.getD a.initial false = true
  · exact .inl ⟨h, if_pos h⟩
  · exact .inr ⟨h, if_neg h⟩

/-- Nothing is useless: every state is on an accepted path. -/
def Trimmed (a : Automaton) : Prop := ∀ q < a.size, a.Reachable q ∧ a.Live q

theorem valid_empty : empty.Valid := by decide

theorem transitions_empty (q : Nat) : empty.transitions q = [] := by
  cases q <;> rfl

theorem separated_empty : empty.Separated := by
  intro q
  rw [transitions_empty]
  exact List.Pairwise.nil

theorem not_live_empty (q : Nat) : ¬ empty.Live q := by
  intro ⟨w, hw⟩
  cases w with
  | nil =>
    rw [nil_mem_residual] at hw
    cases q <;> cases hw
  | cons c w =>
    obtain ⟨_, ⟨t, ht, -⟩, -⟩ := cons_mem_residual.mp hw
    rw [transitions_empty] at ht
    cases ht

theorem not_live_initial_iff : ¬ a.Live a.initial ↔ a.language = 0 := by
  rw [Live, not_exists]
  constructor
  · intro h
    ext w
    exact iff_of_false (h w) (Language.notMem_zero w)
  · intro h w hw
    exact Language.notMem_zero w (h ▸ hw)

theorem wellFormed_empty : empty.WellFormed :=
  ⟨valid_empty, iff_of_true rfl separated_empty, fun _ h => nomatch h⟩

theorem Valid.trim_language (ha : a.Valid) : a.trim.language = a.language := by
  rcases ha.trim_cases with ⟨hlive, heq⟩ | ⟨hdead, heq⟩
  · have hselects := ha.selects_useful hlive
    have hlanguage : (a.retain a.useful).language = a.language :=
      hselects.residual_retain ha.useful_closed hselects.initial_retain
    rw [heq, ← hlanguage]
    exact language_congr rfl rfl
  · rw [heq, not_live_initial_iff.mp hdead, not_live_initial_iff.mp (not_live_empty _)]

theorem Valid.trim_valid (ha : a.Valid) : a.trim.Valid := by
  rcases ha.trim_cases with ⟨hlive, heq⟩ | ⟨-, heq⟩
  · rw [heq]
    exact ((ha.selects_useful hlive).valid_retain ha).congr rfl rfl
  · exact heq ▸ valid_empty

theorem Valid.trim_separated (ha : a.Valid) (hs : a.Separated) : a.trim.Separated := by
  rcases ha.trim_cases with ⟨hlive, heq⟩ | ⟨-, heq⟩
  · rw [heq]
    exact ((ha.selects_useful hlive).separated_retain ha hs).congr rfl
  · exact heq ▸ separated_empty

/-- **Trimming keeps the language**, the marks stay truthful, and what is not empty has no useless
state. -/
theorem WellFormed.trim (ha : a.WellFormed) : a.trim.WellFormed := by
  rcases ha.trim_cases with ⟨hlive, heq⟩ | ⟨-, heq⟩
  · refine ⟨ha.trim_valid, ?_, fun text ht => ?_⟩
    · have hvalid := (ha.selects_useful hlive).valid_retain ha.toValid
      rw [heq]
      exact (deterministic_ofStates hvalid).trans ⟨fun h => h.congr rfl, fun h => h.congr rfl⟩
    · rw [ha.trim_language]
      rw [heq] at ht
      exact ha.known text ht
  · exact heq ▸ wellFormed_empty

theorem Valid.trimmed_trim (ha : a.Valid) (hlive : a.Live a.initial) : a.trim.Trimmed := by
  rcases ha.trim_cases with ⟨-, heq⟩ | ⟨hdead, -⟩
  · have hselects := ha.selects_useful hlive
    intro i hi
    rw [heq] at hi ⊢
    have hlt : i < a.useful.length := hi.trans_eq size_retain
    have hitem := List.getElem?_eq_getElem hlt
    obtain ⟨⟨w, hw⟩, hq⟩ := ha.mem_useful.mp (List.getElem_mem hlt)
    refine ⟨⟨w, (path_congr ?_).mpr
      (hselects.retain_path ha.useful_closed hselects.initial_retain hitem hw hq)⟩, ?_⟩
    · rfl
    · obtain ⟨v, hv⟩ := hq
      refine ⟨v, ?_⟩
      rw [← hselects.residual_retain ha.useful_closed hitem] at hv
      rwa [residual_congr (b := a.retain a.useful)]
      rfl
  · exact absurd hlive hdead

end IntervalAutomata.Automaton
