import IntervalAutomata.Operation.Product
import IntervalAutomata.Proofs.Construction
import IntervalAutomata.Proofs.Counting
import IntervalAutomata.Proofs.Running
import IntervalAutomata.Proofs.Trim
import Mathlib.Data.Finset.Prod

/-! # The product accepts what both factors accept

A pair of states moves on a symbol when both of its states do, because the common part of two intervals
holds exactly the symbols of both. So what is accepted from a pair is accepted from each of its states.
A factor with one known text is asked about nothing else, and a run decides that.

All that is said of the product over every pair of intervals. Where lists have no overlaps, the interval
that ends first has nothing in common with the entries behind the other one, so a walk in step misses
nothing and the two products are the same. -/

namespace IntervalAutomata

theorem Interval.meet?_eq_some_iff {i j k : Interval} : i.meet? j = some k ↔
    Nat.max i.min j.min ≤ Nat.min i.max j.max ∧ k = ⟨Nat.max i.min j.min, Nat.min i.max j.max⟩ := by
  rw [Interval.meet?]
  split
  · rename_i hle
    rw [Option.some.injEq, and_iff_right hle, eq_comm]
  · rename_i hle
    simp [hle]

/-- The common part holds the symbols of both. -/
theorem Interval.contains_meet? {i j : Interval} {c : Nat} :
    (∃ k, i.meet? j = some k ∧ k.contains c = true) ↔ i.contains c = true ∧ j.contains c = true := by
  simp only [Interval.meet?_eq_some_iff, Interval.contains_iff, Nat.max_eq_max, Nat.min_eq_min]
  constructor
  · rintro ⟨_, ⟨-, rfl⟩, hc⟩
    dsimp only at hc
    omega
  · intro h
    exact ⟨_, ⟨by omega, rfl⟩, by dsimp only; omega⟩

theorem Interval.Proper.meet? {i j k : Interval} (hi : i.Proper) (h : i.meet? j = some k) : k.Proper := by
  obtain ⟨hle, rfl⟩ := Interval.meet?_eq_some_iff.mp h
  refine ⟨hle, ?_⟩
  have := hi.max_le
  dsimp only
  rw [Nat.min_eq_min]
  omega

namespace Automaton

variable {a b m : Automaton} {p q c : Nat} {left right : List Transition}

instance : Std.TransCmp pairOrder :=
  inferInstanceAs (Std.TransCmp (compareLex _ _))

instance : Std.LawfulEqCmp pairOrder where
  compare_self := Std.ReflCmp.compare_self
  eq_of_compare {x y} h := by
    simp only [pairOrder, compareLex_eq_eq, compareOn, Nat.compare_eq_eq] at h
    exact Prod.ext h.1 h.2

/-! ## Joint moves -/

/-- The move on what two transitions have in common. -/
def jointMove (s t : Transition) : Option (Interval × (Nat × Nat)) :=
  (s.interval.meet? t.interval).map fun common => (common, (s.target, t.target))

/-- What each entry of one list has in common with each entry of the other. -/
def jointMoves (left right : List Transition) : List (Interval × (Nat × Nat)) :=
  left.flatMap fun s => right.filterMap (jointMove s)

def productRow (a b : Automaton) (q : Nat × Nat) : Row (Nat × Nat) Interval :=
  ⟨a.isAccepting q.1 && b.isAccepting q.2, jointMoves (a.transitions q.1) (b.transitions q.2)⟩

/-- The product over all that two states have in common, whether or not their lists have overlaps. -/
def intersectionWith (limits : Limits) (a b : Automaton) : Build Automaton :=
  productOver (a.productRow b) limits a b

theorem mem_jointMoves {d : Interval × (Nat × Nat)} : d ∈ jointMoves left right ↔
    ∃ s ∈ left, ∃ t ∈ right, s.interval.meet? t.interval = some d.1 ∧
      d.2 = (s.target, t.target) := by
  simp only [jointMoves, jointMove, List.mem_flatMap, List.mem_filterMap, Option.map_eq_some_iff]
  constructor
  · rintro ⟨s, hs, t, ht, i, hi, rfl⟩
    exact ⟨s, hs, t, ht, hi, rfl⟩
  · intro ⟨s, hs, t, ht, hi, heq⟩
    exact ⟨s, hs, t, ht, d.1, hi, by rw [← heq]⟩

/-- A pair steps when both of its states do. -/
theorem leads_productRow {x y : Nat × Nat} :
    (productRow a b x).Leads c y ↔ a.Step x.1 c y.1 ∧ b.Step x.2 c y.2 := by
  simp only [Row.Leads, productRow, mem_jointMoves, Step]
  constructor
  · rintro ⟨d, ⟨s, hs, t, ht, hmeet, heq⟩, hc, rfl⟩
    obtain ⟨hsc, htc⟩ := Interval.contains_meet?.mp ⟨d.1, hmeet, hc⟩
    rw [heq]
    exact ⟨⟨s, hs, hsc, rfl⟩, t, ht, htc, rfl⟩
  · intro h
    obtain ⟨⟨s, hs, hsc, hst⟩, t, ht, htc, htt⟩ := h
    obtain ⟨i, hmeet, hc⟩ := Interval.contains_meet?.mpr ⟨hsc, htc⟩
    exact ⟨(i, y), ⟨s, hs, t, ht, hmeet, by rw [hst, htt]⟩, hc, rfl⟩

theorem proper_productRow (ha : a.Valid) (x : Nat × Nat) : (productRow a b x).Proper := by
  intro d hd
  obtain ⟨s, hs, t, -, hmeet, -⟩ := mem_jointMoves.mp hd
  exact (ha.proper x.1 s hs).meet? hmeet

/-- Common parts of separate intervals are separate. -/
theorem apart_jointMoves (hl : Apart left) (hr : Apart right) :
    (jointMoves left right).Pairwise fun d d' => d.1.max < d'.1.min := by
  have hwithin : ∀ {s t d}, jointMove s t = some d →
      s.interval.min ≤ d.1.min ∧ d.1.max ≤ s.interval.max ∧
        t.interval.min ≤ d.1.min ∧ d.1.max ≤ t.interval.max := by
    intro s t d hd
    obtain ⟨i, hi, rfl⟩ := Option.map_eq_some_iff.mp hd
    obtain ⟨-, rfl⟩ := Interval.meet?_eq_some_iff.mp hi
    dsimp only
    rw [Nat.max_eq_max, Nat.min_eq_min]
    omega
  rw [jointMoves, List.pairwise_flatMap]
  constructor
  · intro s _
    refine hr.filterMap _ fun t t' htt' d hd d' hd' => ?_
    have h := hwithin hd
    have h' := hwithin hd'
    omega
  · refine hl.imp fun {s s'} hss' d hd d' hd' => ?_
    obtain ⟨t, -, hd⟩ := List.mem_filterMap.mp hd
    obtain ⟨t', -, hd'⟩ := List.mem_filterMap.mp hd'
    have h := hwithin hd
    have h' := hwithin hd'
    omega

theorem reaches_productRow_lt (ha : a.Valid) (hb : b.Valid) {x : Nat × Nat}
    (hx : Reaches (productRow a b) [(a.initial, b.initial)] x) : x.1 < a.size ∧ x.2 < b.size := by
  induction hx with
  | start hx =>
    rw [List.mem_singleton.mp hx]
    exact ⟨ha.initial_lt, hb.initial_lt⟩
  | @edge x d _ hd _ =>
    obtain ⟨hs, ht⟩ := leads_productRow.mp ((proper_productRow ha x).leads hd)
    exact ⟨ha.step_lt hs, hb.step_lt ht⟩

/-- The pairs that are found are those that one word leads to. -/
theorem Valid.reaches_product_iff (ha : a.Valid) {x : Nat × Nat} :
    Reaches (productRow a b) [(a.initial, b.initial)] x ↔
      ∃ w, a.Path a.initial w x.1 ∧ b.Path b.initial w x.2 := by
  constructor
  · intro h
    induction h with
    | start hx =>
      rw [List.mem_singleton.mp hx]
      exact ⟨[], .nil _, .nil _⟩
    | @edge x d _ hd ih =>
      obtain ⟨w, hp, hq⟩ := ih
      obtain ⟨hs, ht⟩ := leads_productRow.mp ((proper_productRow ha x).leads hd)
      exact ⟨w ++ [d.1.min], hp.snoc hs, hq.snoc ht⟩
  · intro ⟨w, hp, hq⟩
    have hfollow : ∀ (w : List Symbol) y, Reaches (productRow a b) [(a.initial, b.initial)] y →
        a.Path y.1 w x.1 → b.Path y.2 w x.2 →
          Reaches (productRow a b) [(a.initial, b.initial)] x := by
      intro w
      induction w with
      | nil =>
        intro y hy hp hq
        rwa [← Prod.ext (path_nil_iff.mp hp) (path_nil_iff.mp hq)]
      | cons c w ih =>
        intro y hy hp hq
        obtain ⟨r, hr, hp⟩ := path_cons_iff.mp hp
        obtain ⟨s, hs, hq⟩ := path_cons_iff.mp hq
        have hnext : (productRow a b y).Leads c (r, s) := leads_productRow.mpr ⟨hr, hs⟩
        exact ih (r, s) (hy.leads hnext) hp hq
    exact hfollow w _ (.start (List.mem_singleton_self _)) hp hq

/-- There are only so many pairs of states. -/
theorem bounded_of_pairs {β : Type} {look : Nat × Nat → Row (Nat × Nat) β} {starts : List (Nat × Nat)}
    {m n : Nat} (hlt : ∀ x, Reaches look starts x → x.1 < m ∧ x.2 < n) :
    Bounded look starts (m * n) := by
  have hcard : (Finset.range m ×ˢ Finset.range n).card = m * n := by
    rw [Finset.card_product, Finset.card_range, Finset.card_range]
  rw [← hcard]
  refine bounded_of_mem fun x hx => ?_
  rw [Finset.mem_product, Finset.mem_range, Finset.mem_range]
  exact hlt x hx

theorem bounded_productRow (ha : a.Valid) (hb : b.Valid) :
    Bounded (productRow a b) [(a.initial, b.initial)] (a.size * b.size) :=
  bounded_of_pairs fun _ hx => reaches_productRow_lt ha hb hx

/-! ## Walking in step -/

variable {s t : Transition}

theorem jointMove_eq_none (h : s.interval.max < t.interval.min ∨ t.interval.max < s.interval.min) :
    jointMove s t = none := by
  rw [jointMove, Interval.meet?, if_neg]
  · rfl
  · rw [Nat.max_eq_max, Nat.min_eq_min]
    omega

theorem movesInStep_cons : movesInStep (s :: left) (t :: right) = (jointMove s t).toList ++
    if s.interval.max < t.interval.max then movesInStep left (t :: right)
    else movesInStep (s :: left) right := by
  rw [movesInStep, jointMove]
  cases s.interval.meet? t.interval <;> rfl

theorem filterMap_jointMove_cons : (t :: right).filterMap (jointMove s) =
    (jointMove s t).toList ++ right.filterMap (jointMove s) := by
  rw [List.filterMap_cons]
  cases jointMove s t <;> rfl

/-- Nothing behind `t` has anything in common with `s`. -/
theorem jointMoves_skip_left (h : ∀ u ∈ right, s.interval.max < u.interval.min) :
    jointMoves (s :: left) (t :: right) = (jointMove s t).toList ++ jointMoves left (t :: right) := by
  have hnone : right.filterMap (jointMove s) = [] :=
    List.filterMap_eq_nil_iff.mpr fun u hu => jointMove_eq_none (.inl (h u hu))
  rw [jointMoves, List.flatMap_cons, filterMap_jointMove_cons, hnone, List.append_nil, jointMoves]

/-- Nothing behind `s` has anything in common with `t`. -/
theorem jointMoves_skip_right (h : ∀ u ∈ left, t.interval.max < u.interval.min) :
    jointMoves (s :: left) (t :: right) = (jointMove s t).toList ++ jointMoves (s :: left) right := by
  have hrest : jointMoves left (t :: right) = jointMoves left right := by
    rw [jointMoves, jointMoves, List.flatMap_congr fun u hu => ?_]
    rw [filterMap_jointMove_cons, jointMove_eq_none (.inr (h u hu))]
    rfl
  rw [jointMoves, List.flatMap_cons, ← jointMoves, hrest, filterMap_jointMove_cons, List.append_assoc]
  rfl

/-- **Lists without overlaps can be walked in step.** -/
theorem movesInStep_eq (hl : Apart left) (hr : Apart right) :
    movesInStep left right = jointMoves left right := by
  induction left, right using movesInStep.induct with
  | case1 s left t right _ _ ihl ihr | case2 s left t right _ ihl ihr =>
    obtain ⟨hs, hleft⟩ := List.pairwise_cons.mp hl
    obtain ⟨ht, hright⟩ := List.pairwise_cons.mp hr
    rw [movesInStep_cons]
    split
    · rename_i hlt
      rw [ihl hleft hr, jointMoves_skip_left fun u hu => hlt.trans (ht u hu)]
    · rename_i hle
      rw [ihr hl hright, jointMoves_skip_right fun u hu =>
        Nat.lt_of_le_of_lt (Nat.le_of_not_lt hle) (hs u hu)]
  | case3 left right hshort =>
    rw [movesInStep.eq_2 _ _ hshort]
    match left, right, hshort with
    | [], _, _ => rfl
    | s :: left, [], _ => simp [jointMoves]
    | s :: left, t :: right, hshort => exact (hshort s left t right rfl rfl).elim

/-- With overlaps a walk may miss something, but it finds nothing else. -/
theorem movesInStep_subset : movesInStep left right ⊆ jointMoves left right := by
  induction left, right using movesInStep.induct with
  | case1 s left t right _ _ ihl ihr | case2 s left t right _ ihl ihr =>
    intro d hd
    rw [movesInStep_cons] at hd
    rcases List.mem_append.mp hd with hd | hd
    · refine List.mem_flatMap.mpr ⟨s, List.mem_cons_self, List.mem_filterMap.mpr ⟨t, ?_⟩⟩
      exact ⟨List.mem_cons_self, Option.mem_toList.mp hd⟩
    · rw [mem_jointMoves]
      split at hd
      · obtain ⟨u, hu, v, hv, hmeet⟩ := mem_jointMoves.mp (ihl hd)
        exact ⟨u, List.mem_cons_of_mem _ hu, v, hv, hmeet⟩
      · obtain ⟨u, hu, v, hv, hmeet⟩ := mem_jointMoves.mp (ihr hd)
        exact ⟨u, hu, v, List.mem_cons_of_mem _ hv, hmeet⟩
  | case3 left right hshort =>
    rw [movesInStep.eq_2 _ _ hshort]
    exact List.nil_subset _

theorem bounded_rowInStep (ha : a.Valid) (hb : b.Valid) :
    Bounded (a.rowInStep b) [(a.initial, b.initial)] (a.size * b.size) :=
  fun xs hnodup hxs => bounded_productRow ha hb xs hnodup fun x hx =>
    (hxs x hx).mono fun _ _ hd => movesInStep_subset hd

theorem Valid.rowInStep_eq (ha : a.Valid) (hb : b.Valid) (hsa : a.Separated) (hsb : b.Separated) :
    a.rowInStep b = a.productRow b := by
  funext q
  rw [rowInStep, productRow, movesInStep_eq (ha.apart hsa q.1) (hb.apart hsb q.2)]

/-- **Walking in step gives the product**, as the marks are truthful. -/
theorem WellFormed.intersectionInStep_eq (ha : a.WellFormed) (hb : b.WellFormed) (limits : Limits) :
    a.intersectionInStep limits b = a.intersectionWith limits b := by
  rw [Automaton.intersectionInStep, Automaton.intersectionWith]
  by_cases hdet : a.deterministic = true ∧ b.deterministic = true
  · rw [ha.toValid.rowInStep_eq hb.toValid (ha.separated hdet.1) (hb.separated hdet.2)]
  · have hrefused : (!a.deterministic || !b.deterministic) = true := by
      rw [← Bool.not_and, Bool.not_eq_true', ← Bool.not_eq_true, Bool.and_eq_true]
      exact hdet
    rw [productOver, productOver, hrefused]
    rfl

/-! ## Intersection -/

/-- The automaton over the pairs accepts what both factors accept. -/
theorem Valid.product (ha : a.Valid) (hb : b.Valid) (hsa : a.Separated) (hsb : b.Separated)
    {e : Exploration (Nat × Nat) Interval pairOrder}
    (h : Exploration.Explored (productRow a b) (a.initial, b.initial) e) :
    e.toJoined.WellFormed ∧ e.toJoined.language = a.language ⊓ b.language := by
  have hproper : ∀ x ∈ e.items, (productRow a b x).Proper := fun x _ => proper_productRow ha x
  have hapart : ∀ x ∈ e.items, (productRow a b x).Apart := fun x _ =>
    apart_jointMoves (ha.apart hsa x.1) (hb.apart hsb x.2)
  have harranges : ∀ x ∈ e.items,
      Arranges Interval.Proper coalesce (e.outgoing (productRow a b) x) := fun x hx =>
    Exploration.arranges_coalesce (hproper x hx) (hapart x hx)
  refine ⟨(h.wellFormed_toJoined hproper hapart).1, ?_⟩
  rw [h.toJoined_eq hproper hapart]
  refine h.residual_assembled harranges (fun x => a.residual x.1 ⊓ b.residual x.2) ?_ ?_ h.head
  · intro x _
    rw [Language.mem_inf, nil_mem_residual, nil_mem_residual]
    exact (Bool.and_eq_true_iff).symm
  · intro x _ c w
    rw [Language.mem_inf, cons_mem_residual, cons_mem_residual]
    simp only [leads_productRow]
    constructor
    · intro ⟨⟨p, hp, hwp⟩, q, hq, hwq⟩
      exact ⟨(p, q), ⟨hp, hq⟩, hwp, hwq⟩
    · intro ⟨y, ⟨hp, hq⟩, hwp, hwq⟩
      exact ⟨⟨_, hp, hwp⟩, _, hq, hwq⟩

theorem language_empty : empty.language = 0 := not_live_initial_iff.mp (not_live_empty _)

/-- Of an automaton with one known text the other one accepts all or nothing. -/
theorem WellFormed.known_inf (ha : a.WellFormed) (hb : b.WellFormed) {text : String}
    (h : a.singleton = some text) :
    (if b.run text then a else empty).WellFormed ∧
      (if b.run text then a else empty).language = a.language ⊓ b.language := by
  have hknown := ha.known text h
  split
  · rename_i hrun
    refine ⟨ha, ?_⟩
    ext w
    rw [Language.mem_inf, iff_self_and, hknown]
    rintro rfl
    exact (hb.run_iff text).mp hrun
  · rename_i hrun
    refine ⟨wellFormed_empty, ?_⟩
    rw [language_empty]
    ext w
    refine iff_of_false (Language.notMem_zero w) ?_
    rw [Language.mem_inf, hknown]
    rintro ⟨rfl, hw⟩
    exact hrun ((hb.run_iff text).mpr hw)

/-- An intersection is an operand with one known text, or nothing, or a trimmed product. -/
theorem WellFormed.intersectionWith_eq_ok (ha : a.WellFormed) (hb : b.WellFormed) {limits : Limits}
    (h : (a.intersectionWith limits b).outcome = .ok m) :
    (∃ text, a.singleton = some text ∧ m = if b.run text then a else empty) ∨
      (∃ text, b.singleton = some text ∧ m = if a.run text then b else empty) ∨
      ∃ p : Automaton, p.WellFormed ∧ p.language = a.language ⊓ b.language ∧ m = p.trim := by
  rw [Automaton.intersectionWith, productOver] at h
  split at h
  · obtain ⟨_, h, -⟩ := Build.outcome_bind_eq_ok.mp h
    cases h
  rename_i hdet
  simp only [Bool.or_eq_true, Bool.not_eq_true', not_or, Bool.not_eq_false] at hdet
  split at h
  · rename_i hs
    exact .inl ⟨_, hs, (Build.outcome_pure_eq_ok.mp h).symm⟩
  · rename_i hs
    exact .inr (.inl ⟨_, hs, (Build.outcome_pure_eq_ok.mp h).symm⟩)
  · obtain ⟨e, he, h⟩ := Build.outcome_bind_eq_ok.mp h
    obtain rfl := Build.outcome_reported.mp h
    have hexplored := Limits.explored_of_explore (bounded_productRow ha.toValid hb.toValid) he
    obtain ⟨hwell, hlanguage⟩ := ha.toValid.product hb.toValid (ha.separated hdet.1)
      (hb.separated hdet.2) hexplored
    exact .inr (.inr ⟨_, hwell, hlanguage, rfl⟩)

/-- **An intersection accepts what both accept**, whenever it is built. -/
theorem WellFormed.intersectionWith (ha : a.WellFormed) (hb : b.WellFormed) {limits : Limits}
    (h : (a.intersectionWith limits b).outcome = .ok m) :
    m.WellFormed ∧ m.language = a.language ⊓ b.language := by
  obtain ⟨text, hs, rfl⟩ | ⟨text, hs, rfl⟩ | ⟨p, hwell, hlanguage, rfl⟩ :=
    ha.intersectionWith_eq_ok hb h
  · exact ha.known_inf hb hs
  · rw [inf_comm]
    exact hb.known_inf ha hs
  · exact ⟨hwell.trim, hwell.toValid.trim_language.trans hlanguage⟩

theorem WellFormed.intersectionInStep (ha : a.WellFormed) (hb : b.WellFormed) {limits : Limits}
    (h : (a.intersectionInStep limits b).outcome = .ok m) :
    m.WellFormed ∧ m.language = a.language ⊓ b.language :=
  ha.intersectionWith hb (ha.intersectionInStep_eq hb limits ▸ h)

end Automaton

end IntervalAutomata
