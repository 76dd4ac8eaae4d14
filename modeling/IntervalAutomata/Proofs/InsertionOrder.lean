import IntervalAutomata.Proofs.Mutation
import IntervalAutomata.Proofs.Transduction

/-! # The order of insertion does not matter

What is there already is not added again, and two new entries may be added in either order; so what a
list of requests leaves behind depends only on which requests are in it (`Gathers`). For the lists this
is the uniqueness of ascending lists. The determinism mark is another matter, because it looks only at
the entries that stand beside a new one at that time. But an entry that comes between two overlapping
ones overlaps the first of them, so an overlap that one order gets to see between neighbours shows in
every other order too, between these or between closer ones. -/

namespace IntervalAutomata

/-! ## Requests -/

/-- Every step adds one thing, which stays; nothing is added twice, and the order does not matter. -/
structure Gathers {σ κ : Type} (step : σ → κ → σ) (good : σ → Prop) (ok : κ → Prop)
    (has : σ → κ → Prop) : Prop where
  good_step : ∀ {s c}, good s → ok c → good (step s c)
  has_step : ∀ {s c d}, good s → ok c → (has (step s c) d ↔ d = c ∨ has s d)
  step_of_has : ∀ {s c}, good s → has s c → step s c = s
  step_comm : ∀ {s c d}, good s → ok c → ok d → ¬ has s c → ¬ has s d → c ≠ d →
    step (step s c) d = step (step s d) c

namespace Gathers

variable {σ κ : Type} {step : σ → κ → σ} {good : σ → Prop} {ok : κ → Prop} {has : σ → κ → Prop}
  {s : σ} {c d : κ} {l l' : List κ}

theorem comm (h : Gathers step good ok has) (hs : good s) (hc : ok c) (hd : ok d) :
    step (step s c) d = step (step s d) c := by
  by_cases hcd : c = d
  · rw [hcd]
  by_cases hsc : has s c
  · rw [h.step_of_has hs hsc, h.step_of_has (h.good_step hs hd) ((h.has_step hs hd).mpr (.inr hsc))]
  by_cases hsd : has s d
  · rw [h.step_of_has hs hsd, h.step_of_has (h.good_step hs hc) ((h.has_step hs hc).mpr (.inr hsd))]
  exact h.step_comm hs hc hd hsc hsd hcd

theorem has_foldl (h : Gathers step good ok has) (hs : good s) (hl : ∀ c ∈ l, ok c) :
    has (l.foldl step s) d ↔ d ∈ l ∨ has s d := by
  induction l generalizing s with
  | nil => simp
  | cons c l ih =>
    obtain ⟨hc, hl⟩ := List.forall_mem_cons.mp hl
    rw [List.foldl_cons, ih (h.good_step hs hc) hl, h.has_step hs hc, List.mem_cons]
    tauto

theorem good_foldl (h : Gathers step good ok has) (hs : good s) (hl : ∀ c ∈ l, ok c) :
    good (l.foldl step s) := by
  induction l generalizing s with
  | nil => exact hs
  | cons c l ih =>
    obtain ⟨hc, hl⟩ := List.forall_mem_cons.mp hl
    exact ih (h.good_step hs hc) hl

theorem foldl_of_has (h : Gathers step good ok has) (hs : good s) (hl : ∀ c ∈ l, has s c) :
    l.foldl step s = s := by
  induction l with
  | nil => rfl
  | cons c l ih =>
    obtain ⟨hc, hl⟩ := List.forall_mem_cons.mp hl
    rw [List.foldl_cons, h.step_of_has hs hc, ih hl]

theorem foldl_perm (h : Gathers step good ok has) (hs : good s) (hl : ∀ c ∈ l, ok c)
    (hperm : l.Perm l') : l.foldl step s = l'.foldl step s := by
  induction hperm generalizing s with
  | nil => rfl
  | cons c _ ih =>
    obtain ⟨hc, hl⟩ := List.forall_mem_cons.mp hl
    exact ih (h.good_step hs hc) hl
  | swap c d l =>
    obtain ⟨hd, hl⟩ := List.forall_mem_cons.mp hl
    obtain ⟨hc, hl⟩ := List.forall_mem_cons.mp hl
    simp only [List.foldl_cons]
    rw [h.comm hs hd hc]
  | trans hperm _ ih ih' => exact (ih hs hl).trans (ih' hs fun c hc => hl c (hperm.mem_iff.mpr hc))

/-- What is asked for once more is there. -/
theorem foldl_absorb (h : Gathers step good ok has) (hs : good s) (hl : ∀ c ∈ l, ok c) (hsub : l' ⊆ l) :
    (l ++ l').foldl step s = l.foldl step s := by
  rw [List.foldl_append]
  exact h.foldl_of_has (h.good_foldl hs hl) fun c hc => (h.has_foldl hs hl).mpr (.inl (hsub hc))

/-- **Order and repetitions leave no trace.** -/
theorem foldl_congr (h : Gathers step good ok has) (hs : good s) (hl : ∀ c ∈ l, ok c)
    (hmem : ∀ c, c ∈ l' ↔ c ∈ l) : l'.foldl step s = l.foldl step s := by
  have hl' : ∀ c ∈ l', ok c := fun c hc => hl c ((hmem c).mp hc)
  calc l'.foldl step s
      = (l' ++ l).foldl step s := (h.foldl_absorb hs hl' fun c => (hmem c).mpr).symm
    _ = (l ++ l').foldl step s :=
        h.foldl_perm hs (List.forall_mem_append.mpr ⟨hl', hl⟩) List.perm_append_comm
    _ = l.foldl step s := h.foldl_absorb hs hl fun c => (hmem c).mp

end Gathers

/-! ## Neighbours -/

section

variable {l : List Transition} {s t u v : Transition}

/-- Entry `u` comes between `s` and `t`, whichever of these two is smaller. -/
def Transition.Between (s u t : Transition) : Prop :=
  Transition.order s u = .lt ∧ Transition.order u t = .lt ∨
    Transition.order t u = .lt ∧ Transition.order u s = .lt

theorem Transition.Between.symm (h : Between s u t) : Between t u s := Or.symm h

theorem Transition.not_between_left : ¬ Between s s t := by
  rintro (⟨h, -⟩ | ⟨-, h⟩) <;> exact ne_of_lt_cmp h rfl

theorem Transition.between_iff (hst : Transition.order s t = .lt) :
    Between s u t ↔ Transition.order s u = .lt ∧ Transition.order u t = .lt :=
  or_iff_left fun ⟨htu, hus⟩ => Std.OrientedCmp.not_lt_of_lt (Std.TransCmp.lt_trans htu hus) hst

/-- What comes between `s` and `t` comes between `s` and everything beyond `t`. -/
theorem Transition.Between.beyond (h : Between s u t) (hst : Transition.order s t = .lt)
    (htv : Transition.order t v = .lt) : Between s u v := by
  obtain ⟨hsu, hut⟩ := (between_iff hst).mp h
  exact .inl ⟨hsu, Std.TransCmp.lt_trans hut htv⟩

/-- A new entry overlaps a neighbour if it overlaps an entry with none in between. -/
theorem overlapsNeighbour_iff (hl : Ascends Transition.order l) (hnew : t ∉ l) :
    Automaton.overlapsNeighbour t l = true ↔
      ∃ s ∈ l, s.interval.overlaps t.interval = true ∧ ∀ u ∈ l, ¬ Transition.Between s u t := by
  have hinsert := hl.insert t
  rw [insertAscending_eq_append hnew] at hinsert
  rw [Automaton.overlapsNeighbour, Bool.or_eq_true]
  conv_rhs => rw [← List.takeWhile_append_dropWhile (p := (Transition.order · t == .lt)) (l := l)]
  generalize l.takeWhile (Transition.order · t == .lt) = before at hinsert ⊢
  generalize l.dropWhile (Transition.order · t == .lt) = after at hinsert ⊢
  obtain ⟨hbefore, hbehind, hcross⟩ := List.pairwise_append.mp hinsert
  obtain ⟨hgreater, hafter⟩ := List.pairwise_cons.mp hbehind
  have hsmaller : ∀ s ∈ before, Transition.order s t = .lt := fun s hs =>
    hcross s hs t List.mem_cons_self
  rw [Ascends.getLast?_any_iff hbefore, Ascends.head?_any_iff hafter]
  constructor
  · rintro (⟨s, hs, hover, hlast⟩ | ⟨s, hs, hover, hfirst⟩)
    · refine ⟨s, List.mem_append_left _ hs, hover, fun u hu hbetween => ?_⟩
      obtain ⟨hsu, hut⟩ := (Transition.between_iff (hsmaller s hs)).mp hbetween
      rcases List.mem_append.mp hu with hu | hu
      · exact hlast u hu hsu
      · exact Std.OrientedCmp.not_lt_of_lt (hgreater u hu) hut
    · refine ⟨s, List.mem_append_right _ hs, hover, fun u hu hbetween => ?_⟩
      obtain ⟨htu, hus⟩ := (Transition.between_iff (hgreater s hs)).mp hbetween.symm
      rcases List.mem_append.mp hu with hu | hu
      · exact Std.OrientedCmp.not_lt_of_lt (hsmaller u hu) htu
      · exact hfirst u hu hus
  · rintro ⟨s, hs, hover, hfree⟩
    rcases List.mem_append.mp hs with hs | hs
    · exact .inl ⟨s, hs, hover, fun u hu hsu =>
        hfree u (List.mem_append_left _ hu) (.inl ⟨hsu, hsmaller u hu⟩)⟩
    · exact .inr ⟨s, hs, hover, fun u hu hus =>
        hfree u (List.mem_append_right _ hu) (.inr ⟨hgreater u hu, hus⟩)⟩

/-- What comes between two overlapping entries overlaps the first of them. -/
theorem overlaps_of_between (hsu : Transition.order s u = .lt) (hut : Transition.order u t = .lt)
    (hu : u.interval.min ≤ u.interval.max) (h : s.interval.overlaps t.interval = true) :
    s.interval.overlaps u.interval = true := by
  rw [Transition.order_lt_iff_numbers] at hsu hut
  simp only [Interval.overlaps, Bool.and_eq_true, decide_eq_true_eq] at h ⊢
  omega

/-- Where one of two new entries overlaps a neighbour as it comes, one of them does in the other order. -/
theorem overlapsNeighbour_swap (hl : Ascends Transition.order l) (hs : s ∉ l) (ht : t ∉ l) (hst : s ≠ t)
    (hs' : s.interval.min ≤ s.interval.max) (ht' : t.interval.min ≤ t.interval.max)
    (h : Automaton.overlapsNeighbour s l = true ∨
      Automaton.overlapsNeighbour t (insertAscending Transition.order s l) = true) :
    Automaton.overlapsNeighbour t l = true ∨
      Automaton.overlapsNeighbour s (insertAscending Transition.order t l) = true := by
  have ht'' : t ∉ insertAscending Transition.order s l := by simp [hst.symm, ht]
  have hs'' : s ∉ insertAscending Transition.order t l := by simp [hst, hs]
  rw [overlapsNeighbour_iff hl hs, overlapsNeighbour_iff (hl.insert s) ht''] at h
  rw [overlapsNeighbour_iff hl ht, overlapsNeighbour_iff (hl.insert t) hs'']
  simp only [mem_insertAscending] at h ⊢
  rcases h with ⟨u, hu, hover, hfree⟩ | ⟨u, rfl | hu, hover, hfree⟩
  · by_cases hbetween : Transition.Between u t s
    · -- `t` gets between the two and overlaps the first of them
      obtain ⟨hut, hts⟩ | ⟨hst, htu⟩ := hbetween
      · exact .inl ⟨u, hu, overlaps_of_between hut hts ht' hover, fun v hv h =>
          hfree v hv (h.beyond hut hts)⟩
      · rw [Interval.overlaps_comm] at hover
        have hover' := overlaps_of_between hst htu ht' hover
        rw [Interval.overlaps_comm] at hover'
        refine .inr ⟨t, .inl rfl, hover', ?_⟩
        rintro v (rfl | hv) h
        · exact Transition.not_between_left h
        · exact hfree v hv (h.symm.beyond hst htu).symm
    · refine .inr ⟨u, .inr hu, hover, ?_⟩
      rintro v (rfl | hv)
      · exact hbetween
      · exact hfree v hv
  · rw [Interval.overlaps_comm] at hover
    refine .inr ⟨t, .inl rfl, hover, ?_⟩
    rintro v (rfl | hv) h
    · exact Transition.not_between_left h
    · exact hfree v (.inr hv) h.symm
  · exact .inl ⟨u, hu, hover, fun v hv => hfree v (.inr hv)⟩

theorem overlapsNeighbour_comm (hl : Ascends Transition.order l) (hs : s ∉ l) (ht : t ∉ l)
    (hst : s ≠ t) (hs' : s.interval.min ≤ s.interval.max) (ht' : t.interval.min ≤ t.interval.max) :
    (Automaton.overlapsNeighbour s l ||
        Automaton.overlapsNeighbour t (insertAscending Transition.order s l)) =
      (Automaton.overlapsNeighbour t l ||
        Automaton.overlapsNeighbour s (insertAscending Transition.order t l)) := by
  rw [Bool.eq_iff_iff, Bool.or_eq_true, Bool.or_eq_true]
  exact ⟨overlapsNeighbour_swap hl hs ht hst hs' ht', overlapsNeighbour_swap hl ht hs hst.symm ht' hs'⟩

end

/-! ## States -/

/-- Changes to single entries may be made in either order. -/
theorem modify_modify_comm {α : Type} {entries : Array α} {p q : Nat} {f g : α → α}
    (h : p = q → ∀ hp : p < entries.size, g (f entries[p]) = f (g entries[p])) :
    (entries.modify p f).modify q g = (entries.modify q g).modify p f := by
  refine Array.ext (by simp) fun i hi _ => ?_
  simp only [Array.getElem_modify]
  simp only [Array.size_modify] at hi
  by_cases hp : p = i
  · by_cases hq : q = i
    · subst hp hq
      simpa using h rfl hi
    · simp [hq]
  · simp [hp]

namespace Automaton

variable {a : Automaton} {q : Nat} {t : Transition}

/-- Adds the transitions that are asked for, each with the state it leaves, one after the other. -/
def addTransitions (a : Automaton) (requests : List (Nat × Transition)) : Automaton :=
  requests.foldl (fun a r => a.addTransition r.1 r.2.interval r.2.target) a

theorem addTransition_new (h : t ∉ a.transitions q) : a.addTransition q t.interval t.target =
    { states := a.states.modify q fun s =>
        { s with transitions := insertAscending Transition.order t s.transitions }
      initial := a.initial
      deterministic := a.deterministic && !overlapsNeighbour t (a.transitions q)
      minimal := false
      singleton := none } := if_neg (mt List.contains_iff_mem.mp h)

theorem mem_addTransition {r r' : Nat × Transition} (hr : r.1 < a.size) :
    r'.2 ∈ (a.addTransition r.1 r.2.interval r.2.target).transitions r'.1 ↔
      r' = r ∨ r'.2 ∈ a.transitions r'.1 := by
  by_cases hmem : r.2 ∈ a.transitions r.1
  · rw [addTransition_of_mem hmem, or_iff_right_of_imp fun h => h ▸ hmem]
  · rw [(addTransition_of_not_mem hr hmem).1, Prod.ext_iff]
    split
    · rename_i hsource
      rw [mem_insertAscending, hsource, and_iff_right rfl]
    · rename_i hsource
      rw [or_iff_right fun h => hsource h.1]

theorem ascends_addTransition {r : Nat × Transition}
    (ha : ∀ p, Ascends Transition.order (a.transitions p)) (hr : r.1 < a.size) (p : Nat) :
    Ascends Transition.order ((a.addTransition r.1 r.2.interval r.2.target).transitions p) := by
  by_cases hmem : r.2 ∈ a.transitions r.1
  · rw [addTransition_of_mem hmem]
    exact ha p
  · rw [(addTransition_of_not_mem hr hmem).1]
    split
    · exact (ha r.1).insert r.2
    · exact ha p

/-- Two new transitions can be added in either order, and the marks are the same. -/
theorem addTransition_comm {r r' : Nat × Transition}
    (ha : ∀ p, Ascends Transition.order (a.transitions p)) (hr : r.1 < a.size) (hr' : r'.1 < a.size)
    (hi : r.2.interval.min ≤ r.2.interval.max) (hi' : r'.2.interval.min ≤ r'.2.interval.max)
    (hnew : r.2 ∉ a.transitions r.1) (hnew' : r'.2 ∉ a.transitions r'.1) (hne : r ≠ r') :
    (a.addTransition r.1 r.2.interval r.2.target).addTransition r'.1 r'.2.interval r'.2.target =
      (a.addTransition r'.1 r'.2.interval r'.2.target).addTransition r.1 r.2.interval r.2.target := by
  have hlater : r'.2 ∉ (a.addTransition r.1 r.2.interval r.2.target).transitions r'.1 := by
    rw [mem_addTransition hr]
    exact not_or.mpr ⟨hne.symm, hnew'⟩
  have hlater' : r.2 ∉ (a.addTransition r'.1 r'.2.interval r'.2.target).transitions r.1 := by
    rw [mem_addTransition hr']
    exact not_or.mpr ⟨hne, hnew⟩
  rw [addTransition_new hlater, addTransition_new hlater', (addTransition_of_not_mem hr hnew).1,
    (addTransition_of_not_mem hr' hnew').1, addTransition_new hnew, addTransition_new hnew']
  dsimp only
  congr 1
  · refine modify_modify_comm fun _ hlt => ?_
    have hlist : Ascends Transition.order a.states[r.1].transitions := by
      rw [getElem_states hlt]
      exact ha r.1
    rw [hlist.insertAscending_comm]
  · rw [Bool.and_assoc, Bool.and_assoc]
    by_cases hsource : r.1 = r'.1
    · rw [if_pos hsource.symm, if_pos hsource, hsource]
      rw [hsource] at hnew
      have hne' : r.2 ≠ r'.2 := fun h => hne (Prod.ext hsource h)
      rw [← Bool.not_or, ← Bool.not_or, overlapsNeighbour_comm (ha r'.1) hnew hnew' hne' hi hi']
    · rw [if_neg (Ne.symm hsource), if_neg hsource, Bool.and_comm (!_)]

theorem gathers_addTransition (n : Nat) :
    Gathers (fun (a : Automaton) (r : Nat × Transition) => a.addTransition r.1 r.2.interval r.2.target)
      (fun a => a.size = n ∧ ∀ p, Ascends Transition.order (a.transitions p))
      (fun r => r.1 < n ∧ r.2.interval.min ≤ r.2.interval.max)
      (fun a r => r.2 ∈ a.transitions r.1) where
  good_step := fun ⟨hsize, ha⟩ ⟨hr, _⟩ =>
    ⟨size_addTransition.trans hsize, ascends_addTransition ha (hsize ▸ hr)⟩
  has_step := fun ⟨hsize, _⟩ ⟨hr, _⟩ => mem_addTransition (hsize ▸ hr)
  step_of_has _ hmem := addTransition_of_mem hmem
  step_comm := fun ⟨hsize, ha⟩ ⟨hr, hi⟩ ⟨hr', hi'⟩ =>
    addTransition_comm ha (hsize ▸ hr) (hsize ▸ hr') hi hi'

end Automaton

namespace Transducer

variable {t : Transducer} {r r' : Nat × Emission}

/-- Adds the transitions that are asked for, each with the state it leaves, one after the other. -/
def addTransitions (t : Transducer) (requests : List (Nat × Emission)) : Transducer :=
  requests.foldl (fun t r => t.addTransition r.1 r.2.interval r.2.output r.2.target) t

theorem ascends_addTransition (ht : ∀ p, Ascends Emission.order (t.transitions p)) (hr : r.1 < t.size)
    (p : Nat) :
    Ascends Emission.order ((t.addTransition r.1 r.2.interval r.2.output r.2.target).transitions p) := by
  rw [transitions, state, addTransition, Automaton.getD_modify hr]
  split
  · exact (ht r.1).insert r.2
  · exact ht p

theorem transitions_getElem {p : Nat} (hp : p < t.states.size) :
    t.states[p].transitions = t.transitions p := by
  rw [transitions, state, Array.getD_eq_getD_getElem?, Array.getElem?_eq_getElem hp, Option.getD_some]

theorem addTransition_of_mem (ht : ∀ p, Ascends Emission.order (t.transitions p))
    (hmem : r.2 ∈ t.transitions r.1) :
    t.addTransition r.1 r.2.interval r.2.output r.2.target = t := by
  have hstates : (t.addTransition r.1 r.2.interval r.2.output r.2.target).states = t.states := by
    refine Array.ext size_addTransition fun i hi hi' => ?_
    simp only [addTransition, Array.getElem_modify]
    split
    · rename_i hsource
      subst hsource
      rw [transitions_getElem, (ht r.1).insertAscending_of_mem hmem, ← transitions_getElem hi']
    · rfl
  exact congrArg (Transducer.mk · t.initial) hstates

theorem addTransition_comm (ht : ∀ p, Ascends Emission.order (t.transitions p)) :
    (t.addTransition r.1 r.2.interval r.2.output r.2.target).addTransition
        r'.1 r'.2.interval r'.2.output r'.2.target =
      (t.addTransition r'.1 r'.2.interval r'.2.output r'.2.target).addTransition
        r.1 r.2.interval r.2.output r.2.target := by
  unfold addTransition
  dsimp only
  congr 1
  refine modify_modify_comm fun _ hlt => ?_
  rw [transitions_getElem hlt, (ht r.1).insertAscending_comm]

theorem gathers_addTransition (n : Nat) :
    Gathers (fun (t : Transducer) (r : Nat × Emission) =>
        t.addTransition r.1 r.2.interval r.2.output r.2.target)
      (fun t => t.size = n ∧ ∀ p, Ascends Emission.order (t.transitions p)) (fun r => r.1 < n)
      (fun t r => r.2 ∈ t.transitions r.1) where
  good_step := fun ⟨hsize, ht⟩ hr =>
    ⟨size_addTransition.trans hsize, ascends_addTransition ht (hsize ▸ hr)⟩
  has_step := fun ⟨hsize, _⟩ hr => by
    rw [mem_transitions_addTransition (hsize ▸ hr), or_comm, Prod.ext_iff]
  step_of_has := fun ⟨_, ht⟩ hmem => addTransition_of_mem ht hmem
  step_comm := fun ⟨_, ht⟩ _ _ _ _ _ => addTransition_comm ht

end Transducer

/-! ## Order and repetitions -/

/-- **The order of insertion does not matter.** Requests for transitions between states that exist leave
equal automata, marks included, in whatever order and however often they are made; and so they do for
transducers. The determinism mark need not be truthful, only the lists have to ascend. -/
theorem insertion_order_free :
    (∀ (a : Automaton) (requests requests' : List (Nat × Transition)),
      (∀ q, Ascends Transition.order (a.transitions q)) →
      (∀ r ∈ requests, r.1 < a.size ∧ r.2.interval.min ≤ r.2.interval.max) →
      (∀ r, r ∈ requests' ↔ r ∈ requests) →
      a.addTransitions requests' = a.addTransitions requests) ∧
    ∀ (t : Transducer) (requests requests' : List (Nat × Emission)),
      (∀ q, Ascends Emission.order (t.transitions q)) → (∀ r ∈ requests, r.1 < t.size) →
      (∀ r, r ∈ requests' ↔ r ∈ requests) →
      t.addTransitions requests' = t.addTransitions requests :=
  ⟨fun a _ _ ha hrequests hmem =>
      (Automaton.gathers_addTransition a.size).foldl_congr ⟨rfl, ha⟩ hrequests hmem,
    fun t _ _ ht hrequests hmem =>
      (Transducer.gathers_addTransition t.size).foldl_congr ⟨rfl, ht⟩ hrequests hmem⟩

/-- One transition, on `b`. -/
def Automaton.sparse : Automaton := (new.addState true).addTransition 0 (.single 98) 1

/-- An entry that overlaps the one on `b`, a loop elsewhere, and an entry that takes the place before the
one on `b` where it comes first. -/
def crowding : List (Nat × Transition) :=
  [(0, ⟨⟨97, 99⟩, 1⟩), (1, ⟨⟨98, 120⟩, 1⟩), (0, ⟨⟨97, 97⟩, 0⟩)]

/-- The mark falls with the first request in one order and with the last in the other. -/
theorem insertion_order_crowding :
    Automaton.sparse.deterministic = true ∧
    Automaton.sparse.addTransitions (crowding.reverse ++ crowding) =
      Automaton.sparse.addTransitions crowding ∧
    (Automaton.sparse.addTransitions crowding).deterministic = false ∧
    (Transducer.new.addState true).addTransitions
        [(1, ⟨⟨98, 98⟩, .epsilon, 0⟩), (0, ⟨⟨97, 99⟩, .identity, 1⟩), (1, ⟨⟨98, 98⟩, .identity, 0⟩),
          (1, ⟨⟨98, 98⟩, .epsilon, 0⟩)] =
      (Transducer.new.addState true).addTransitions
        [(0, ⟨⟨97, 99⟩, .identity, 1⟩), (1, ⟨⟨98, 98⟩, .identity, 0⟩), (1, ⟨⟨98, 98⟩, .epsilon, 0⟩)] := by
  have ha : Automaton.sparse.Valid := by decide
  have ht : ∀ q, Ascends Emission.order ((Transducer.new.addState true).transitions q) := by
    rintro (_ | _ | q) <;> exact List.Pairwise.nil
  refine ⟨by decide, ?_, by decide, ?_⟩
  · exact insertion_order_free.1 _ _ _ ha.ascends (by decide) fun r => by simp
  · exact insertion_order_free.2 _ _ _ ht (by decide) fun r => by simp; tauto

end IntervalAutomata
