import IntervalAutomata.Proofs.Assembly

/-! # Changing an automaton state by state

Adding a state, choosing accepting states and choosing the initial one leave all transitions alone. A
new transition takes its place in an ascending list, and if it overlaps any entry there it overlaps one
of its two neighbours: what lies before the neighbour on its left ends before that one starts, and what
lies behind the neighbour on its right starts later still. So looking at the neighbours keeps the
determinism mark truthful. -/

namespace IntervalAutomata

/-! ## Neighbours -/

/-- A new entry stands between the smaller and the greater ones. -/
theorem insertAscending_eq_append {α : Type} {cmp : α → α → Ordering} [Std.OrientedCmp cmp]
    [Std.LawfulEqCmp cmp] {x : α} {xs : List α} (h : x ∉ xs) :
    insertAscending cmp x xs =
      xs.takeWhile (cmp · x == .lt) ++ x :: xs.dropWhile (cmp · x == .lt) := by
  induction xs with
  | nil => rfl
  | cons y ys ih =>
    obtain ⟨hne, hys⟩ := not_or.mp (mt List.mem_cons.mpr h)
    rw [insertAscending, List.takeWhile_cons, List.dropWhile_cons]
    cases hxy : cmp x y with
    | lt =>
      rw [Std.OrientedCmp.gt_of_lt hxy]
      rfl
    | eq => exact absurd (Std.LawfulEqCmp.eq_of_compare hxy) hne
    | gt =>
      rw [Std.OrientedCmp.lt_of_gt hxy, ih hys]
      rfl

section

variable {before after l : List Transition} {t : Transition}

/-- Between two lists an entry keeps apart from all others when it keeps apart from its neighbours. -/
theorem apart_between_iff (hp : ∀ s ∈ before ++ t :: after, s.interval.min ≤ s.interval.max) :
    Apart (before ++ t :: after) ↔ Apart (before ++ after) ∧
      (∀ s, before.getLast? = some s → s.interval.max < t.interval.min) ∧
      ∀ u, after.head? = some u → t.interval.max < u.interval.min := by
  have ht := hp t (by simp)
  constructor
  · intro h
    obtain ⟨hbefore, hbehind, hcross⟩ := List.pairwise_append.mp h
    obtain ⟨hafter, -⟩ := List.pairwise_cons.mp hbehind
    refine ⟨h.sublist ((List.sublist_cons_self t after).append_left before), fun s hs => ?_,
      fun u hu => hafter u (List.mem_of_mem_head? hu)⟩
    exact hcross s (List.mem_of_mem_getLast? hs) t (List.mem_cons_self ..)
  · intro ⟨h, hlast, hhead⟩
    obtain ⟨hbefore, hafter, -⟩ := List.pairwise_append.mp h
    have hleft : ∀ s ∈ before, s.interval.max < t.interval.min := by
      obtain rfl | ⟨init, last, rfl⟩ := before.eq_nil_or_concat'
      · simp
      · have hlt := hlast last (by simp)
        have hends := hp last (by simp)
        intro s hs
        obtain hs | hs := List.mem_append.mp hs
        · have := (List.pairwise_append.mp hbefore).2.2 s hs last (List.mem_singleton_self last)
          omega
        · rwa [List.mem_singleton.mp hs]
    have hright : ∀ u ∈ after, t.interval.max < u.interval.min := by
      cases after with
      | nil => simp
      | cons first rest =>
        have hlt := hhead first rfl
        have hends := hp first (by simp)
        refine List.forall_mem_cons.mpr ⟨hlt, fun u hu => ?_⟩
        have := (List.pairwise_cons.mp hafter).1 u hu
        omega
    refine List.pairwise_append.mpr ⟨hbefore, List.pairwise_cons.mpr ⟨hright, hafter⟩, fun s hs => ?_⟩
    refine List.forall_mem_cons.mpr ⟨hleft s hs, fun u hu => ?_⟩
    have := hleft s hs
    have := hright u hu
    omega

/-- **An entry that overlaps neither neighbour overlaps nothing.** -/
theorem apart_insertAscending_iff (hl : Ascends Transition.order l)
    (hp : ∀ s ∈ l, s.interval.min ≤ s.interval.max) (ht : t.interval.min ≤ t.interval.max)
    (hnew : t ∉ l) :
    Apart (insertAscending Transition.order t l) ↔
      Apart l ∧ Automaton.overlapsNeighbour t l = false := by
  have hascends := hl.insert t
  have hends : ∀ s ∈ insertAscending Transition.order t l, s.interval.min ≤ s.interval.max := by
    intro s hs
    obtain rfl | hs := mem_insertAscending.mp hs
    · exact ht
    · exact hp s hs
  rw [insertAscending_eq_append hnew] at hascends hends ⊢
  obtain ⟨-, hbehind, hcross⟩ := List.pairwise_append.mp hascends
  rw [apart_between_iff hends, List.takeWhile_append_dropWhile, Automaton.overlapsNeighbour,
    Bool.or_eq_false_iff]
  refine and_congr_right fun _ => and_congr ?_ ?_
  · rw [Option.any_eq_false]
    refine forall_congr' fun s => imp_congr_right fun hs => ?_
    have hlt := hcross s (List.mem_of_mem_getLast? hs) t (List.mem_cons_self ..)
    exact ⟨fun h => Interval.overlaps_eq_false_iff.mpr (.inr h), Transition.max_lt_min hlt ht⟩
  · rw [Option.any_eq_false]
    refine forall_congr' fun u => imp_congr_right fun hu => ?_
    have hmem := List.mem_of_mem_head? hu
    have hlt := (List.pairwise_cons.mp hbehind).1 u hmem
    have hu := hends u (List.mem_append_right _ (List.mem_cons_of_mem t hmem))
    rw [Interval.overlaps_comm]
    exact ⟨fun h => Interval.overlaps_eq_false_iff.mpr (.inr h), Transition.max_lt_min hlt hu⟩

end

namespace Automaton

variable {a : Automaton} {p q source target : Nat} {i : Interval} {t : Transition} {accept : Bool}

/-! ## States -/

@[simp] theorem size_addState : (a.addState accept).size = a.size + 1 := Array.size_push _

@[simp] theorem transitions_addState : (a.addState accept).transitions p = a.transitions p := by
  rw [transitions, transitions]
  obtain h | rfl | h := Nat.lt_trichotomy p a.size
  · simp [state, addState, forget, Array.getD_eq_getD_getElem?, Array.getElem?_push_lt h,
      Array.getElem?_eq_getElem h]
  · rw [state_of_size_le (Nat.le_refl _)]
    simp [state, addState, forget, size, Array.getD_eq_getD_getElem?]
  · rw [state_of_size_le (Nat.le_of_lt h), state_of_size_le]
    rw [size_addState]
    exact h

theorem WellFormed.addState (ha : a.WellFormed) (accept : Bool) : (a.addState accept).WellFormed :=
  ha.of_transitions (fun _ => transitions_addState) (size_addState ▸ Nat.le_succ _)
    (size_addState ▸ Nat.lt_succ_of_lt ha.initial_lt) rfl rfl

/-- One entry changed in its place. -/
theorem getD_modify {α : Type} {entries : Array α} {f : α → α} {missing : α}
    (hsource : source < entries.size) : (entries.modify source f).getD p missing =
      if p = source then f (entries.getD source missing) else entries.getD p missing := by
  simp only [Array.getD_eq_getD_getElem?, Array.getElem?_modify]
  by_cases hp : p = source
  · subst hp
    rw [if_pos rfl, if_pos rfl, Array.getElem?_eq_getElem hsource]
    rfl
  · rw [if_neg (Ne.symm hp), if_neg hp]

theorem WellFormed.setAccept (ha : a.WellFormed) (hq : q < a.size) (accept : Bool) :
    (a.setAccept q accept).WellFormed := by
  have hsize : (a.setAccept q accept).size = a.size := Array.size_modify
  refine ha.of_transitions (fun p => ?_) hsize.ge (hsize.symm ▸ ha.initial_lt) rfl rfl
  have hstate : (a.setAccept q accept).state p =
      if p = q then { a.state q with accept := accept } else a.state p := getD_modify hq
  rw [transitions, transitions, hstate]
  split
  · rename_i hp
    rw [hp]
  · rfl

theorem WellFormed.setInitial (ha : a.WellFormed) (hq : q < a.size) : (a.setInitial q).WellFormed :=
  ha.of_transitions (fun _ => rfl) (Nat.le_refl _) hq rfl rfl

/-! ## Transitions -/

theorem addTransition_of_mem (h : ⟨i, target⟩ ∈ a.transitions source) :
    a.addTransition source i target = a := by
  unfold addTransition
  exact if_pos (List.contains_iff_mem.mpr h)

theorem size_addTransition : (a.addTransition source i target).size = a.size := by
  unfold addTransition
  dsimp only
  split
  · rfl
  · exact Array.size_modify

/-- What a new transition changes. -/
theorem addTransition_of_not_mem (hsource : source < a.size)
    (h : ⟨i, target⟩ ∉ a.transitions source) :
    let b := a.addTransition source i target
    (∀ p, b.transitions p = if p = source then
      insertAscending Transition.order ⟨i, target⟩ (a.transitions source) else a.transitions p) ∧
      b.initial = a.initial ∧ b.minimal = false ∧ b.singleton = none ∧
      b.deterministic = (a.deterministic && !overlapsNeighbour ⟨i, target⟩ (a.transitions source)) := by
  have hb : a.addTransition source i target =
      { a with
        states := a.states.modify source fun s =>
          { s with transitions := insertAscending Transition.order ⟨i, target⟩ s.transitions }
        deterministic := a.deterministic && !overlapsNeighbour ⟨i, target⟩ (a.transitions source)
      }.forget := if_neg (mt List.contains_iff_mem.mp h)
  dsimp only
  rw [hb]
  refine ⟨fun p => ?_, rfl, rfl, rfl, rfl⟩
  rw [transitions, transitions, transitions]
  refine (congrArg State.transitions (getD_modify hsource)).trans ?_
  split <;> rfl

theorem mem_of_mem_addTransition (hsource : source < a.size)
    (h : t ∈ (a.addTransition source i target).transitions p) :
    t ∈ a.transitions p ∨ t = ⟨i, target⟩ := by
  by_cases hmem : (⟨i, target⟩ : Transition) ∈ a.transitions source
  · rw [addTransition_of_mem hmem] at h
    exact .inl h
  · rw [(addTransition_of_not_mem hsource hmem).1] at h
    split at h
    · rename_i hp
      rw [hp]
      exact (mem_insertAscending.mp h).symm
    · exact .inl h

theorem Valid.addTransition (ha : a.Valid) (hsource : source < a.size) (hi : i.Proper)
    (htarget : target < a.size) : (a.addTransition source i target).Valid := by
  by_cases hmem : (⟨i, target⟩ : Transition) ∈ a.transitions source
  · rw [addTransition_of_mem hmem]
    exact ha
  obtain ⟨htransitions, hinitial, -⟩ := addTransition_of_not_mem hsource hmem
  refine ⟨?_, fun p t ht => ?_, fun p => ?_, fun p t ht => ?_⟩
  · rw [size_addTransition, hinitial]
    exact ha.initial_lt
  · rw [size_addTransition]
    obtain ht | rfl := mem_of_mem_addTransition hsource ht
    · exact ha.target_lt p t ht
    · exact htarget
  · rw [htransitions]
    split
    · exact (ha.ascends source).insert _
    · exact ha.ascends p
  · obtain ht | rfl := mem_of_mem_addTransition hsource ht
    · exact ha.proper p t ht
    · exact hi

/-- Lists without overlaps stay so exactly where a new entry is free of its neighbours. -/
theorem apart_addTransition_iff (hsource : source < a.size)
    (hascends : Ascends Transition.order (a.transitions source))
    (hends : ∀ s ∈ a.transitions source, s.interval.min ≤ s.interval.max) (hi : i.min ≤ i.max)
    (hmem : ⟨i, target⟩ ∉ a.transitions source) :
    (∀ p, Apart ((a.addTransition source i target).transitions p)) ↔
      (∀ p, Apart (a.transitions p)) ∧ overlapsNeighbour ⟨i, target⟩ (a.transitions source) = false := by
  have hinsert := apart_insertAscending_iff (t := ⟨i, target⟩) hascends hends hi hmem
  have htransitions := (addTransition_of_not_mem hsource hmem).1
  constructor
  · intro h
    have hnew := h source
    rw [htransitions, if_pos rfl, hinsert] at hnew
    refine ⟨fun p => ?_, hnew.2⟩
    by_cases hp : p = source
    · exact hp ▸ hnew.1
    · have hold := h p
      rwa [htransitions, if_neg hp] at hold
  · intro ⟨h, hfree⟩ p
    rw [htransitions]
    split
    · exact hinsert.mpr ⟨h source, hfree⟩
    · exact h p

/-- Separated before and free of its neighbours is separated afterwards. -/
theorem Valid.separated_addTransition (ha : a.Valid) (hsource : source < a.size) (hi : i.Proper)
    (htarget : target < a.size) (hmem : ⟨i, target⟩ ∉ a.transitions source) :
    (a.addTransition source i target).Separated ↔
      a.Separated ∧ overlapsNeighbour ⟨i, target⟩ (a.transitions source) = false := by
  rw [(ha.addTransition hsource hi htarget).separated_iff, ha.separated_iff]
  exact apart_addTransition_iff hsource (ha.ascends source)
    (fun s hs => (ha.proper source s hs).min_le_max) hi.min_le_max hmem

/-- **A new transition keeps the determinism mark truthful.** -/
theorem WellFormed.addTransition (ha : a.WellFormed) (hsource : source < a.size) (hi : i.Proper)
    (htarget : target < a.size) : (a.addTransition source i target).WellFormed := by
  by_cases hmem : (⟨i, target⟩ : Transition) ∈ a.transitions source
  · rw [addTransition_of_mem hmem]
    exact ha
  obtain ⟨-, -, -, hsingleton, hdet⟩ := addTransition_of_not_mem hsource hmem
  refine ⟨ha.toValid.addTransition hsource hi htarget, ?_, fun text ht => ?_⟩
  · rw [ha.toValid.separated_addTransition hsource hi htarget hmem, hdet, Bool.and_eq_true,
      ha.deterministic_iff, Bool.not_eq_true']
  · rw [hsingleton] at ht
    cases ht

end Automaton

end IntervalAutomata
