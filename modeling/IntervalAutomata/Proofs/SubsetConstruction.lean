import IntervalAutomata.Determinize
import IntervalAutomata.Proofs.Construction
import IntervalAutomata.Proofs.Counting
import IntervalAutomata.Proofs.Running
import IntervalAutomata.Proofs.SegmentSweep
import Mathlib.Data.Finset.Powerset
import Mathlib.Data.Set.Function

/-! # Subset construction

On a segment all transitions that leave a set are constant, so the row of a set leads on each symbol to
the set of its successors, unless that is empty. The sets that are found are therefore those that some
word leads to, and each of them is a state of its own: a path of the result spells the words after
which the automaton may be in exactly the states of the set. -/

namespace IntervalAutomata.Automaton

open Exploration

variable {a : Automaton} {set next : List Nat} {c : Nat} {w : List Nat}

/-- The states in which `w` can leave the automaton. -/
def reachedBy (a : Automaton) (w : List Symbol) : Set Nat := {q | a.Path a.initial w q}

/-! ## Rows -/

/-- The successors of a set are constant on a segment. -/
theorem successors_eq_of_contains {cut : Interval}
    (hcut : cut ∈ segments (boundaries ((set.flatMap a.transitions).map (·.interval))))
    (hc : cut.contains c = true) : a.successors set c = a.successors set cut.min := by
  refine Ascends.eq_of_mem_iff (ascends_successors a set c) (ascends_successors ..) fun q => ?_
  rw [mem_successors, mem_successors]
  refine exists_congr fun p => and_congr_right fun hp => exists_congr fun t => ?_
  refine and_congr_right fun ht => and_congr_left' ?_
  refine contains_iff_contains_min hcut ?_ hc
  exact List.mem_map_of_mem (List.mem_flatMap.mpr ⟨p, hp, ht⟩)

theorem Valid.sweep_eq (ha : a.Valid) (set : List Nat) : a.sweep set =
    a.segmentMoves set (segments (boundaries ((set.flatMap a.transitions).map (·.interval)))) :=
  Automaton.sweep_eq fun q _ t ht => (ha.proper q t ht).min_le_max

theorem Valid.leads_subsetRow (ha : a.Valid) :
    (a.subsetRow set).Leads c next ↔ next = a.successors set c ∧ next ≠ [] := by
  simp only [Row.Leads, subsetRow, ha.sweep_eq, segmentMoves, List.mem_filter, List.mem_map,
    Bool.not_eq_true', List.isEmpty_eq_false_iff]
  constructor
  · rintro ⟨_, ⟨⟨cut, hcut, rfl⟩, hne⟩, hc, rfl⟩
    exact ⟨(successors_eq_of_contains hcut hc).symm, hne⟩
  · rintro ⟨rfl, hne⟩
    obtain ⟨q, hq⟩ := List.exists_mem_of_ne_nil _ hne
    obtain ⟨p, hp, t, ht, hc, rfl⟩ := mem_successors.mp hq
    have hmem : t.interval ∈ (set.flatMap a.transitions).map (·.interval) :=
      List.mem_map_of_mem (List.mem_flatMap.mpr ⟨p, hp, ht⟩)
    obtain ⟨cut, hcut, hcontains⟩ := exists_segment_of_contains hmem hc
    have hsame := successors_eq_of_contains hcut hcontains
    exact ⟨(cut, a.successors set cut.min), ⟨⟨cut, hcut, rfl⟩, hsame ▸ hne⟩, hcontains, hsame.symm⟩

theorem Valid.proper_subsetRow (ha : a.Valid) (set : List Nat) : (a.subsetRow set).Proper := by
  intro d hd
  simp only [subsetRow, ha.sweep_eq, segmentMoves, List.mem_filter, List.mem_map] at hd
  obtain ⟨⟨cut, hcut, rfl⟩, -⟩ := hd
  refine proper_of_mem_segments (fun i hi => ?_) hcut
  obtain ⟨t, ht, rfl⟩ := List.mem_map.mp hi
  obtain ⟨p, -, ht⟩ := List.mem_flatMap.mp ht
  exact ha.proper p t ht

theorem Valid.apart_subsetRow (ha : a.Valid) (set : List Nat) : (a.subsetRow set).Apart := by
  rw [Row.Apart, subsetRow, ha.sweep_eq]
  refine List.Pairwise.filter _ (List.pairwise_map.mpr ?_)
  exact apart_segments (ascends_boundaries _)

/-! ## Reachable sets -/

theorem Valid.reaches_subset_iff (ha : a.Valid) :
    Reaches a.subsetRow [[a.initial]] set ↔ set ≠ [] ∧ ∃ w, set = a.follow [a.initial] w := by
  constructor
  · intro h
    induction h with
    | start hx => exact ⟨by simp [List.mem_singleton.mp hx], [], List.mem_singleton.mp hx⟩
    | edge _ hd ih =>
      obtain ⟨-, w, hw⟩ := ih
      obtain ⟨hnext, hne⟩ := ha.leads_subsetRow.mp ((ha.proper_subsetRow _).leads hd)
      rw [hw] at hnext
      exact ⟨hne, w ++ [_], by rw [follow_append]; exact hnext⟩
  · rintro ⟨hne, w, rfl⟩
    -- the sets along the word are not empty, because the last one is not
    have hfollow : ∀ (w : List Nat) set, Reaches a.subsetRow [[a.initial]] set →
        a.follow set w ≠ [] → Reaches a.subsetRow [[a.initial]] (a.follow set w) := by
      intro w
      induction w with
      | nil => exact fun set hset _ => hset
      | cons c w ih =>
        intro set hset hne
        have hnext : a.successors set c ≠ [] := by
          intro hnil
          rw [follow, hnil, follow_nil] at hne
          exact hne rfl
        exact ih _ (hset.leads (ha.leads_subsetRow.mpr ⟨rfl, hnext⟩)) hne
    exact hfollow w _ (.start (List.mem_singleton.mpr rfl)) hne

theorem ascends_of_reaches (ha : a.Valid) (h : Reaches a.subsetRow [[a.initial]] set) :
    Ascends compare set ∧ ∀ q ∈ set, q < a.size := by
  obtain ⟨-, w, rfl⟩ := ha.reaches_subset_iff.mp h
  refine ⟨ascends_follow (List.pairwise_singleton _ _) w, fun q hq => ?_⟩
  obtain ⟨p, hp, hw⟩ := mem_follow.mp hq
  exact ha.path_lt hw (List.mem_singleton.mp hp ▸ ha.initial_lt)

/-- There are no more sets than subsets. -/
theorem Valid.bounded_subsets (ha : a.Valid) :
    Bounded a.subsetRow [[a.initial]] (1 <<< a.size) := by
  intro sets hnodup hsets
  have hinj : (sets.map List.toFinset).Nodup := by
    refine (List.nodup_map_iff_inj_on hnodup).mpr fun s hs t ht heq => ?_
    refine (ascends_of_reaches ha (hsets s hs)).1.eq_of_mem_iff
      (ascends_of_reaches ha (hsets t ht)).1 fun q => ?_
    rw [← List.mem_toFinset, heq, List.mem_toFinset]
  have hsub : (sets.map List.toFinset).toFinset ⊆ (Finset.range a.size).powerset := by
    intro s hs
    obtain ⟨t, ht, rfl⟩ := List.mem_map.mp (List.mem_toFinset.mp hs)
    refine Finset.mem_powerset.mpr fun q hq => Finset.mem_range.mpr ?_
    exact (ascends_of_reaches ha (hsets t ht)).2 q (List.mem_toFinset.mp hq)
  have hcard := Finset.card_le_card hsub
  rwa [List.toFinset_card_of_nodup hinj, List.length_map, Finset.card_powerset, Finset.card_range,
    ← Nat.one_shiftLeft] at hcard

/-! ## The automaton of sets -/

section

variable {sets : Exploration (List Nat) Interval compare} {i : Nat}

theorem Valid.arranges_subsets (ha : a.Valid) (sets : Exploration (List Nat) Interval compare)
    (set : List Nat) : Arranges Interval.Proper coalesce (sets.outgoing a.subsetRow set) :=
  arranges_coalesce (ha.proper_subsetRow set) (ha.apart_subsetRow set)

theorem Valid.subsets_toJoined (ha : a.Valid) (h : Explored a.subsetRow [a.initial] sets) :
    sets.toJoined = sets.assembled coalesce :=
  h.toJoined_eq (fun set _ => ha.proper_subsetRow set) fun set _ => ha.apart_subsetRow set

theorem Valid.subset_step_iff (ha : a.Valid) (h : Explored a.subsetRow [a.initial] sets) {j : Nat} :
    sets.toJoined.Step i c j ↔ ∃ set, sets.items[i]? = some set ∧
      sets.items[j]? = some (a.successors set c) ∧ a.successors set c ≠ [] := by
  rw [ha.subsets_toJoined h, h.step_assembled fun set _ => ha.arranges_subsets sets set]
  constructor
  · intro ⟨set, next, hi, hj, hleads⟩
    obtain ⟨rfl, hne⟩ := ha.leads_subsetRow.mp hleads
    exact ⟨set, hi, hj, hne⟩
  · intro ⟨set, hi, hj, hne⟩
    exact ⟨set, _, hi, hj, ha.leads_subsetRow.mpr ⟨rfl, hne⟩⟩

theorem Valid.subset_ne_nil (ha : a.Valid) (h : Explored a.subsetRow [a.initial] sets)
    (hi : sets.items[i]? = some set) : set ≠ [] :=
  (ha.reaches_subset_iff.mp
    ((h.mem_items set).mp (Array.mem_iff_getElem?.mpr ⟨i, hi⟩))).1

/-- A word leads to the set of states in which it can leave the automaton, and to none if it
cannot. -/
theorem Valid.subset_path_iff (ha : a.Valid) (h : Explored a.subsetRow [a.initial] sets) {j : Nat}
    (hi : sets.items[i]? = some set) :
    sets.toJoined.Path i w j ↔ sets.items[j]? = some (a.follow set w) := by
  induction w generalizing i set with
  | nil =>
    rw [path_nil_iff, follow]
    constructor
    · rintro rfl
      exact hi
    · intro hj
      exact h.indexed.index_unique hi hj
  | cons c w ih =>
    rw [path_cons_iff, follow]
    constructor
    · intro hex
      obtain ⟨r, hs, hw⟩ := hex
      obtain ⟨_, hi', hr, -⟩ := (ha.subset_step_iff h).mp hs
      rw [hi] at hi'
      cases hi'
      exact (ih hr).mp hw
    · intro hj
      have hne : a.successors set c ≠ [] := by
        intro hnil
        rw [hnil, follow_nil] at hj
        exact ha.subset_ne_nil h hj rfl
      have hleads : (a.subsetRow set).Leads c (a.successors set c) :=
        ha.leads_subsetRow.mpr ⟨rfl, hne⟩
      have hset := (h.mem_items set).mp (Array.mem_iff_getElem?.mpr ⟨i, hi⟩)
      have hr := h.indexed.getElem?_numberOf ((h.mem_items _).mpr (hset.leads hleads))
      exact ⟨_, (ha.subset_step_iff h).mpr ⟨set, hi, hr, hne⟩, (ih hr).mpr hj⟩

theorem Valid.subset_language (ha : a.Valid) (h : Explored a.subsetRow [a.initial] sets) :
    sets.toJoined.language = a.language := by
  have hresidual := h.residual_assembled (fun set _ => ha.arranges_subsets sets set)
    (fun set => {w | ∃ p ∈ set, w ∈ a.residual p}) ?_ ?_ h.head
  · rw [ha.subsets_toJoined h, language, assembled, initial_ofStates]
    refine hresidual.trans ?_
    ext w
    show (∃ p ∈ [a.initial], w ∈ a.residual p) ↔ _
    simp [language]
  · intro set _
    show (∃ p ∈ set, [] ∈ a.residual p) ↔ set.any a.isAccepting = true
    simp [List.any_eq_true]
  · intro set _ c w
    show (∃ p ∈ set, c :: w ∈ a.residual p) ↔
      ∃ next, (a.subsetRow set).Leads c next ∧ ∃ q ∈ next, w ∈ a.residual q
    simp only [cons_mem_residual, ha.leads_subsetRow]
    constructor
    · intro hex
      obtain ⟨p, hp, q, hs, hw⟩ := hex
      have hq : q ∈ a.successors set c := mem_successors.mpr ⟨p, hp, hs⟩
      exact ⟨_, ⟨rfl, List.ne_nil_of_mem hq⟩, q, hq, hw⟩
    · rintro ⟨_, ⟨rfl, -⟩, q, hq, hw⟩
      obtain ⟨p, hp, hs⟩ := mem_successors.mp hq
      exact ⟨p, hp, q, hs, hw⟩

theorem Valid.subset_wellFormed (ha : a.Valid) (h : Explored a.subsetRow [a.initial] sets) :
    sets.toJoined.WellFormed :=
  (h.wellFormed_toJoined (fun set _ => ha.proper_subsetRow set) fun set _ =>
    ha.apart_subsetRow set).1

theorem Valid.subset_apart (ha : a.Valid) (h : Explored a.subsetRow [a.initial] sets) (q : Nat) :
    Apart (sets.toJoined.transitions q) ∧ Joined (sets.toJoined.transitions q) := by
  rw [ha.subsets_toJoined h]
  exact h.apart_joined (fun set _ => ha.proper_subsetRow set) (fun set _ => ha.apart_subsetRow set) q

theorem Valid.subset_separated (ha : a.Valid) (h : Explored a.subsetRow [a.initial] sets) :
    sets.toJoined.Separated :=
  separated_of_apart fun q => (ha.subset_apart h q).1

end

/-! ## Determinization -/

/-- A deterministic automaton is returned as it is; any other becomes the automaton of its sets, with
what was known of its language. -/
theorem Valid.determinizeWith_eq_ok (ha : a.Valid) {limits : Limits} {d : Automaton}
    (h : (a.determinizeWith limits).outcome = .ok d) :
    a.deterministic = true ∧ d = a ∨ a.deterministic = false ∧
      ∃ sets : Exploration (List Nat) Interval compare, Explored a.subsetRow [a.initial] sets ∧
        d = sets.toJoined.setSingleton a.singleton := by
  unfold determinizeWith at h
  split at h
  · rename_i hd
    exact .inl ⟨hd, (Build.outcome_pure_eq_ok.mp h).symm⟩
  · rename_i hd
    obtain ⟨sets, hsets, h⟩ := Build.outcome_bind_eq_ok.mp h
    exact .inr ⟨Bool.eq_false_iff.mpr hd, sets, Limits.explored_of_explore ha.bounded_subsets hsets,
      (Build.outcome_reported.mp h).symm⟩

theorem outcome_determinizeWith {limits : Limits} (h : limits.maxStates = none) :
    ∃ d, (a.determinizeWith limits).outcome = .ok d := by
  unfold determinizeWith
  split
  · exact ⟨a, rfl⟩
  · obtain ⟨sets, hsets⟩ := Limits.explore_unlimited h
    exact ⟨_, Build.outcome_bind_eq_ok.mpr ⟨sets, hsets, Build.outcome_reported.mpr rfl⟩⟩

theorem outcome_determinize (a : Automaton) :
    (a.determinizeWith {}).outcome = .ok a.determinize.value := by
  obtain ⟨d, hd⟩ : ∃ d, (a.determinizeWith {}).outcome = .ok d := outcome_determinizeWith rfl
  rw [determinize, Build.value_getD _ hd, hd]

theorem WellFormed.determinizeWith (ha : a.WellFormed) {limits : Limits} {d : Automaton}
    (h : (a.determinizeWith limits).outcome = .ok d) :
    d.WellFormed ∧ d.deterministic = true ∧ d.language = a.language := by
  rcases ha.determinizeWith_eq_ok h with ⟨hd, rfl⟩ | ⟨-, sets, hsets, rfl⟩
  · exact ⟨ha, hd, rfl⟩
  · have hwell := ha.subset_wellFormed hsets
    have hdet : sets.toJoined.deterministic = true :=
      hwell.deterministic_iff.mpr (ha.subset_separated hsets)
    have hlanguage := ha.subset_language hsets
    refine ⟨hwell.congr rfl rfl rfl fun text ht => ?_, hdet, ?_⟩
    · exact hlanguage.trans (ha.known text ht)
    · rw [← hlanguage]
      exact language_congr rfl rfl

theorem reachedBy_eq (a : Automaton) (w : List Nat) :
    a.reachedBy w = {q | q ∈ a.follow [a.initial] w} := by
  ext q
  simp [reachedBy, mem_follow]

/-- The states of a subset construction are the sets that words lead to. -/
theorem Valid.bijOn_subsets (ha : a.Valid) {sets : Exploration (List Nat) Interval compare}
    (h : Explored a.subsetRow [a.initial] sets) :
    Set.BijOn (fun i => {q | q ∈ sets.items.getD i []}) {i | i < sets.items.size}
      {S | S = {a.initial} ∨ S.Nonempty ∧ ∃ w, S = a.reachedBy w} := by
  have hitem : ∀ {i}, i < sets.items.size → sets.items[i]? = some (sets.items.getD i []) := by
    intro i hi
    rw [Array.getD_eq_getD_getElem?, Array.getElem?_eq_getElem hi, Option.getD_some]
  have hreach : ∀ {i}, i < sets.items.size →
      Reaches a.subsetRow [[a.initial]] (sets.items.getD i []) := fun hi =>
    (h.mem_items _).mp (Array.mem_iff_getElem?.mpr ⟨_, hitem hi⟩)
  refine ⟨fun i hi => ?_, fun i hi j hj heq => ?_, fun S hS => ?_⟩
  · obtain ⟨hne, w, hw⟩ := ha.reaches_subset_iff.mp (hreach hi)
    refine .inr ⟨List.exists_mem_of_ne_nil _ hne, w, ?_⟩
    rw [reachedBy_eq, ← hw]
  · have hsame : sets.items.getD i [] = sets.items.getD j [] :=
      (ascends_of_reaches ha (hreach hi)).1.eq_of_mem_iff (ascends_of_reaches ha (hreach hj)).1
        fun q => Set.ext_iff.mp heq q
    exact h.indexed.index_unique (hitem hi) (hsame ▸ hitem hj)
  · have hword : ∃ w, S = a.reachedBy w ∧ a.follow [a.initial] w ≠ [] := by
      rcases hS with rfl | ⟨⟨q, hq⟩, w, rfl⟩
      · refine ⟨[], ?_, by simp [follow]⟩
        rw [reachedBy_eq, follow]
        ext q
        simp
      · refine ⟨w, rfl, ?_⟩
        rw [reachedBy_eq] at hq
        exact List.ne_nil_of_mem hq
    obtain ⟨w, rfl, hne⟩ := hword
    have hmem := (h.mem_items _).mpr (ha.reaches_subset_iff.mpr ⟨hne, w, rfl⟩)
    have hi := h.indexed.getElem?_numberOf hmem
    refine ⟨_, h.indexed.numberOf_lt hmem, ?_⟩
    rw [reachedBy_eq]
    dsimp only
    rw [Array.getD_eq_getD_getElem?, hi, Option.getD_some]

theorem Valid.item_eq_some_iff (ha : a.Valid) {sets : Exploration (List Nat) Interval compare}
    (h : Explored a.subsetRow [a.initial] sets) {i : Nat} :
    sets.items[i]? = some (a.follow [a.initial] w) ↔
      i < sets.items.size ∧ {q | q ∈ sets.items.getD i []} = a.reachedBy w := by
  rw [reachedBy_eq, Array.getD_eq_getD_getElem?]
  constructor
  · intro hi
    exact ⟨(Array.getElem?_eq_some_iff.mp hi).1, by rw [hi, Option.getD_some]⟩
  · intro ⟨hi, hset⟩
    rw [Array.getElem?_eq_getElem hi] at hset ⊢
    have hreach := (h.mem_items _).mp (Array.getElem_mem hi)
    rw [(ascends_of_reaches ha hreach).1.eq_of_mem_iff
      (ascends_follow (List.pairwise_singleton _ _) w) fun q => Set.ext_iff.mp hset q]

/-- **Subset construction is exact.** The result is deterministic and accepts the same words; its
states are the non-empty sets in which words can leave the automaton, numbered breadth first, and no
interval of a state continues another one with the same target. -/
theorem WellFormed.determinize_exact (ha : a.WellFormed) :
    (a.deterministic = true → a.determinize.value = a) ∧
    (a.deterministic = false →
      let d := a.determinize.value
      d.WellFormed ∧ d.deterministic = true ∧ d.Separated ∧
      (∀ w, d.runSymbols w = a.runSymbols w) ∧
      (∃ sets : Nat → Set Nat,
        Set.BijOn sets {i | i < d.size}
          {S | S = {a.initial} ∨ S.Nonempty ∧ ∃ w, S = a.reachedBy w} ∧
        sets d.initial = {a.initial} ∧
        ∀ w i, d.Path d.initial w i ↔ i < d.size ∧ sets i = a.reachedBy w) ∧
      d.reachable = List.range d.size ∧
      ∀ q, Joined (d.transitions q)) := by
  have hok := outcome_determinize a
  obtain ⟨hwell, hdet, hlanguage⟩ := ha.determinizeWith hok
  rcases ha.determinizeWith_eq_ok hok with ⟨hd, heq⟩ | ⟨hd, sets, hsets, heq⟩
  · exact ⟨fun _ => heq, fun hd' => absurd hd (by rw [hd']; exact Bool.false_ne_true)⟩
  refine ⟨fun hd' => absurd hd' (by rw [hd]; exact Bool.false_ne_true), fun _ => ?_⟩
  have hjoined := ha.subsets_toJoined hsets
  have hsize : a.determinize.value.size = sets.items.size := by
    rw [heq, hjoined]
    exact hsets.size_assembled
  have hinitial : a.determinize.value.initial = 0 := by
    rw [heq, hjoined]
    rfl
  have hbijOn := ha.bijOn_subsets hsets
  refine ⟨hwell, hdet, hwell.separated hdet, fun w => ?_, ⟨_, hsize ▸ hbijOn, ?_, fun w i => ?_⟩,
    ?_, fun q => ?_⟩
  · rw [Bool.eq_iff_iff, hwell.runSymbols_iff, ha.runSymbols_iff, hlanguage]
  · rw [hinitial, Array.getD_eq_getD_getElem?, hsets.head]
    ext q
    simp
  · rw [hinitial, hsize, heq, ← ha.item_eq_some_iff hsets, ← ha.subset_path_iff hsets hsets.head]
    exact path_congr rfl
  · refine reachable_eq_range hinitial ?_
    rw [heq, hjoined]
    exact hsets.breadthFirst_joined (fun set _ => ha.proper_subsetRow set)
      fun set _ => ha.apart_subsetRow set
  · rw [heq]
    exact (ha.subset_apart hsets q).2

/-- Two intervals that overlap. -/
def branching : Automaton :=
  .ofStates [⟨false, [⟨⟨97, 99⟩, 0⟩, ⟨⟨98, 100⟩, 1⟩]⟩, ⟨true, []⟩] 0

theorem determinize_branching : branching.WellFormed ∧ branching.deterministic = false ∧
    ∀ w, branching.determinize.value.runSymbols w = branching.runSymbols w :=
  have hwell : branching.WellFormed := wellFormed_ofStates (by decide)
  ⟨hwell, rfl, (hwell.determinize_exact.2 rfl).2.2.2.1⟩

end IntervalAutomata.Automaton
