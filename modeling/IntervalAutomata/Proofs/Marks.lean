import IntervalAutomata.Binary.Decode
import IntervalAutomata.Proofs.Acceptors
import IntervalAutomata.Proofs.Minimization

/-! # Checking marks against transitions

The states held while a text is read are the live ones that its beginning leads to, and together they
accept what may still follow. As long as that is one text, every way on reads its next symbol and
nothing else, and none of the states accepts before the end: so the check of a singleton decides
whether the language has that text alone. A state that is not live accepts nothing and is passed over.
The check of a minimal mark asks for useful states only, which automata of the least size have. -/

namespace IntervalAutomata.Binary

open Automaton

variable {a : Automaton} {p q : Nat} {current : List Nat}

/-! ## One text -/

/-- What some state of `current` accepts. -/
def residuals (a : Automaton) (current : List Nat) : Language Symbol :=
  {w | ∃ q ∈ current, w ∈ a.residual q}

theorem nil_mem_residuals : [] ∈ residuals a current ↔ ∃ q ∈ current, a.isAccepting q = true :=
  exists_congr fun _ => and_congr_right fun _ => nil_mem_residual

/-- The live states that some transition of `current` leads to. -/
def onward (a : Automaton) (live : Array Bool) (current : List Nat) : List Nat :=
  ascending compare <| current.flatMap fun q =>
    ((a.transitions q).filter fun t => live.getD t.target false).map (·.target)

variable {live : Array Bool} {t : Transition} {c d : Nat} {w : List Nat}

theorem mem_onward : p ∈ onward a live current ↔
    ∃ q ∈ current, ∃ t ∈ a.transitions q, live.getD t.target false = true ∧ t.target = p := by
  simp only [onward, mem_ascending, List.mem_flatMap, List.mem_map, List.mem_filter, and_assoc]

variable (hlive : ∀ q, live.getD q false = true ↔ a.Live q)
include hlive

/-- A word goes on through a live state. -/
theorem cons_mem_residuals : d :: w ∈ residuals a current ↔ ∃ q ∈ current, ∃ t ∈ a.transitions q,
    t.interval.contains d = true ∧ live.getD t.target false = true ∧ w ∈ a.residual t.target := by
  constructor
  · intro ⟨q, hq, hw⟩
    obtain ⟨_, ⟨t, ht, hd, rfl⟩, hw⟩ := cons_mem_residual.mp hw
    exact ⟨q, hq, t, ht, hd, (hlive _).mpr ⟨w, hw⟩, hw⟩
  · intro ⟨q, hq, t, ht, hd, _, hw⟩
    exact ⟨q, hq, cons_mem_residual.mpr ⟨_, ⟨t, ht, hd, rfl⟩, hw⟩⟩

/-- When every live way on reads `c`, what follows `c` is accepted onward. -/
theorem cons_mem_residuals_iff
    (h : ∀ q ∈ current, ∀ t ∈ a.transitions q, live.getD t.target false = true →
      t.interval = .single c) :
    d :: w ∈ residuals a current ↔ d = c ∧ w ∈ residuals a (onward a live current) := by
  rw [cons_mem_residuals hlive]
  constructor
  · intro ⟨q, hq, t, ht, hd, htlive, hw⟩
    rw [h q hq t ht htlive, contains_single] at hd
    exact ⟨hd, t.target, mem_onward.mpr ⟨q, hq, t, ht, htlive, rfl⟩, hw⟩
  · rintro ⟨rfl, p, hp, hw⟩
    obtain ⟨q, hq, t, ht, htlive, rfl⟩ := mem_onward.mp hp
    exact ⟨q, hq, t, ht, by rw [h q hq t ht htlive, contains_single], htlive, hw⟩

variable (hproper : ∀ p, ∀ t ∈ a.transitions p, t.interval.min ≤ t.interval.max)
include hproper

/-- Only one symbol leads on when only one text is accepted. -/
theorem single_of_residuals_eq {cs : List Nat} (h : residuals a current = {c :: cs}) (hq : q ∈ current)
    (ht : t ∈ a.transitions q) (htlive : live.getD t.target false = true) :
    t.interval = .single c := by
  obtain ⟨w, hw⟩ := (hlive _).mp htlive
  have hread : ∀ d, t.interval.contains d = true → d = c := by
    intro d hd
    have hmem : d :: w ∈ residuals a current :=
      (cons_mem_residuals hlive).mpr ⟨q, hq, t, ht, hd, htlive, hw⟩
    rw [h] at hmem
    exact (List.cons.inj hmem).1
  have hle := hproper q t ht
  have hmin := hread t.interval.min (by simp [hle])
  have hmax := hread t.interval.max (by simp [hle])
  have heta : t.interval = ⟨t.interval.min, t.interval.max⟩ := rfl
  rw [heta, hmin, hmax, Interval.single]

/-- Nothing but the end may follow where only the empty word is accepted. -/
theorem residuals_eq_nil_iff : residuals a current = {[]} ↔
    (∀ q ∈ current, ∀ t ∈ a.transitions q, live.getD t.target false = false) ∧
      ∃ q ∈ current, a.isAccepting q = true := by
  constructor
  · intro h
    refine ⟨fun q hq t ht => Bool.eq_false_of_not_eq_true fun htlive => ?_, ?_⟩
    · obtain ⟨w, hw⟩ := (hlive _).mp htlive
      have hmem : t.interval.min :: w ∈ residuals a current := (cons_mem_residuals hlive).mpr
        ⟨q, hq, t, ht, by simp [hproper q t ht], htlive, hw⟩
      rw [h] at hmem
      cases hmem
    · exact nil_mem_residuals.mp (h ▸ rfl)
  · intro ⟨hend, haccept⟩
    refine Set.eq_singleton_iff_unique_mem.mpr ⟨nil_mem_residuals.mpr haccept, fun w hw => ?_⟩
    cases w with
    | nil => rfl
    | cons d w =>
      obtain ⟨q, hq, t, ht, -, htlive, -⟩ := (cons_mem_residuals hlive).mp hw
      cases (hend q hq t ht).symm.trans htlive

/-- Where a word is all that is accepted, the end is not accepted yet and its first symbol leads on. -/
theorem residuals_eq_cons_iff {cs : List Nat} : residuals a current = {c :: cs} ↔
    (∀ q ∈ current, a.isAccepting q = false ∧ ∀ t ∈ a.transitions q,
      live.getD t.target false = false ∨ t.interval = .single c) ∧
      residuals a (onward a live current) = {cs} := by
  constructor
  · intro h
    have hsingle : ∀ q ∈ current, ∀ t ∈ a.transitions q, live.getD t.target false = true →
        t.interval = .single c := fun q hq t ht htlive =>
      single_of_residuals_eq hlive hproper h hq ht htlive
    refine ⟨fun q hq => ⟨Bool.eq_false_of_not_eq_true fun haccept => ?_, fun t ht => ?_⟩, ?_⟩
    · have hmem : [] ∈ residuals a current := nil_mem_residuals.mpr ⟨q, hq, haccept⟩
      rw [h] at hmem
      cases hmem
    · cases htlive : live.getD t.target false with
      | false => exact .inl rfl
      | true => exact .inr (hsingle q hq t ht htlive)
    · ext w
      have hcons := cons_mem_residuals_iff (d := c) (w := w) hlive hsingle
      rw [h] at hcons
      exact ⟨fun hw => (List.cons.inj (hcons.mpr ⟨rfl, hw⟩)).2, fun hw => (hcons.mp (hw ▸ rfl)).2⟩
  · intro ⟨hon, hrest⟩
    have hsingle : ∀ q ∈ current, ∀ t ∈ a.transitions q, live.getD t.target false = true →
        t.interval = .single c := fun q hq t ht htlive =>
      ((hon q hq).2 t ht).resolve_left fun hdead => by cases hdead.symm.trans htlive
    ext w
    cases w with
    | nil =>
      refine iff_of_false (fun hw => ?_) (List.cons_ne_nil _ _).symm
      obtain ⟨q, hq, haccept⟩ := nil_mem_residuals.mp hw
      cases (hon q hq).1.symm.trans haccept
    | cons d w =>
      rw [cons_mem_residuals_iff hlive hsingle, hrest]
      exact List.cons_eq_cons.symm

/-- **Reading a text through live states decides whether they accept nothing else.** -/
theorem denotesFrom_iff (cs : List Char) :
    denotesFrom a live current cs = true ↔ residuals a current = {cs.map Char.toNat} := by
  induction cs generalizing current with
  | nil =>
    rw [List.map_nil, residuals_eq_nil_iff hlive hproper]
    simp only [denotesFrom, Bool.and_eq_true, List.all_eq_true, List.any_eq_true, Bool.not_eq_true']
  | cons c cs ih =>
    rw [List.map_cons, residuals_eq_cons_iff hlive hproper, ← ih]
    simp only [denotesFrom, onward, Bool.and_eq_true, List.all_eq_true, Bool.or_eq_true,
      Bool.not_eq_true', beq_iff_eq]

omit hlive hproper

/-- The live states among the initial one alone accept the language. -/
theorem residuals_initial (ha : a.InRange) :
    residuals a ([a.initial].filter fun q => a.live.getD q false) = a.language := by
  ext w
  simp only [residuals, List.mem_filter, List.mem_singleton, ha.live_iff]
  constructor
  · rintro ⟨_, ⟨rfl, -⟩, hw⟩
    exact hw
  · exact fun hw => ⟨_, ⟨rfl, w, hw⟩, hw⟩

theorem denotesOnly_iff_of_inRange (ha : a.InRange) (text : String) :
    denotesOnly a text = true ↔ a.language = {symbols text} := by
  rw [denotesOnly, denotesFrom_iff (fun q => ha.live_iff) ha.min_le_max, residuals_initial ha, symbols]

/-- **The check of a singleton decides whether the language is that text alone.** -/
theorem denotesOnly_iff (ha : a.Valid) (text : String) :
    denotesOnly a text = true ↔ a.language = {symbols text} :=
  denotesOnly_iff_of_inRange ha.inRange text

/-- **The check of a singleton is a decision procedure** wherever numbers name states and no interval is
inverted. Overlaps, cycles, useless states and the order of the transitions make no difference. -/
theorem denotesOnly_exact (hinitial : a.initial < a.size)
    (htarget : ∀ p, ∀ t ∈ a.transitions p, t.target < a.size)
    (hends : ∀ p, ∀ t ∈ a.transitions p, t.interval.min ≤ t.interval.max) (text : String) :
    denotesOnly a text = true ↔
      ∀ w, (∃ q, a.Path a.initial w q ∧ a.isAccepting q = true) ↔ w = symbols text := by
  rw [denotesOnly_iff_of_inRange ⟨hinitial, htarget, hends⟩]
  exact Language.ext_iff

/-- Two ways to spell `ab`, from transitions in no order. States 3 and 4 go round without accepting, one
of them on a symbol beyond the alphabet, and nothing leads to state 5. -/
def knotted : Automaton where
  states := #[⟨false, [⟨⟨97, 97⟩, 2⟩, ⟨⟨97, 97⟩, 1⟩, ⟨⟨0, 200⟩, 3⟩]⟩, ⟨false, [⟨⟨98, 98⟩, 6⟩]⟩,
    ⟨false, [⟨⟨120, 122⟩, 4⟩, ⟨⟨98, 98⟩, 6⟩]⟩, ⟨false, [⟨⟨97, 98⟩, 4⟩]⟩,
    ⟨false, [⟨⟨0x110000, 0x110000⟩, 3⟩, ⟨⟨97, 97⟩, 4⟩]⟩, ⟨true, [⟨⟨97, 122⟩, 0⟩, ⟨⟨97, 122⟩, 5⟩]⟩,
    ⟨true, [⟨⟨99, 99⟩, 3⟩]⟩]
  initial := 0
  deterministic := false
  minimal := false
  singleton := none

theorem denotesOnly_knotted : ¬ knotted.Valid ∧
    (∃ q, knotted.Path 0 (symbols "ab") q ∧ knotted.isAccepting q = true) ∧
    (∀ w, (∃ q, knotted.Path 0 w q ∧ knotted.isAccepting q = true) → w = symbols "ab") ∧
    denotesOnly knotted "a" = false := by
  have hall : ∀ p, ∀ t ∈ knotted.transitions p,
      t.target < knotted.size ∧ t.interval.min ≤ t.interval.max := by
    intro p
    rcases Nat.lt_or_ge p knotted.size with h | h
    · revert p
      decide
    · rw [transitions, state_of_size_le h]
      exact List.forall_mem_nil _
  have hdecides := (denotesOnly_exact (by decide) (fun p t ht => (hall p t ht).1)
    (fun p t ht => (hall p t ht).2) "ab").mp (by decide +kernel)
  exact ⟨by decide, (hdecides _).mpr rfl, fun w => (hdecides w).mp, by decide +kernel⟩

/-! ## No useless states -/

/-- Numbers below `n` without repetition are all of them as soon as there are enough. -/
theorem le_length_iff {n : Nat} {numbers : List Nat} (hnodup : numbers.Nodup)
    (hlt : ∀ q ∈ numbers, q < n) : n ≤ numbers.length ↔ ∀ q < n, q ∈ numbers := by
  have hsub := List.subperm_of_subset hnodup fun q hq => List.mem_range.mpr (hlt q hq)
  constructor
  · intro h q hq
    refine (hsub.perm_of_length_le ?_).mem_iff.mpr (List.mem_range.mpr hq)
    rwa [List.length_range]
  · intro h
    have hall : List.range n ⊆ numbers := fun q hq => h q (List.mem_range.mp hq)
    simpa using (List.subperm_of_subset List.nodup_range hall).length_le

theorem length_reachable_eq_iff (ha : a.Valid) :
    a.reachable.length = a.size ↔ ∀ q < a.size, a.Reachable q := by
  have hlt : ∀ q ∈ a.reachable, q < a.size := fun q hq => ha.reachable_lt (ha.mem_reachable.mp hq)
  have hle : a.reachable.length ≤ a.size := by
    simpa using (List.subperm_of_subset ha.nodup_reachable fun q hq =>
      List.mem_range.mpr (hlt q hq)).length_le
  simp only [← ha.mem_reachable]
  rw [← le_length_iff ha.nodup_reachable hlt]
  exact ⟨fun h => h.ge, fun h => Nat.le_antisymm hle h⟩

theorem live_all_iff (ha : a.Valid) : a.live.toList.all id = true ↔ ∀ q < a.size, a.Live q := by
  have hsize : a.live.size = a.size := by simp [live]
  rw [List.all_eq_true]
  constructor
  · intro h q hq
    have hq' : q < a.live.size := hsize ▸ hq
    rw [← ha.live_iff, Array.getD_eq_getD_getElem?, Array.getElem?_eq_getElem hq', Option.getD_some]
    exact h _ (by simp)
  · intro h b hb
    obtain ⟨q, hq, rfl⟩ := Array.mem_iff_getElem.mp (Array.mem_toList_iff.mp hb)
    have hlive := ha.live_iff.mpr (h q (hsize ▸ hq))
    rwa [Array.getD_eq_getD_getElem?, Array.getElem?_eq_getElem hq, Option.getD_some] at hlive

/-- One state, which neither accepts nor moves. -/
def Bare (a : Automaton) : Prop := a.size = 1 ∧ a.accepting = [] ∧ a.transitionCount = 0

theorem not_live_of_accepting_eq_nil (h : a.accepting = []) (q : Nat) : ¬ a.Live q := by
  intro ⟨_, p, _, hp⟩
  have hmem := mem_accepting.mpr hp
  rw [h] at hmem
  cases hmem

/-- **The check of a minimal mark asks that no state is useless.** -/
theorem isTrimmed_iff (ha : a.Valid) : isTrimmed a = true ↔ a.Trimmed ∨ Bare a := by
  unfold isTrimmed
  split
  · rename_i hone
    simp only [Bool.and_eq_true, beq_iff_eq, List.isEmpty_iff] at hone ⊢
    refine ⟨fun h => .inr ⟨hone.1, hone.2, h⟩, fun h => (h.resolve_left fun htrim => ?_).2.2⟩
    exact not_live_of_accepting_eq_nil hone.2 _ (htrim _ ha.initial_lt).2
  · rename_i hone
    rw [Bool.and_eq_true, beq_iff_eq, length_reachable_eq_iff ha, live_all_iff ha]
    have hbare : ¬ Bare a := fun h => hone (by simp [h.1, h.2.1])
    rw [or_iff_left hbare]
    exact ⟨fun h q hq => ⟨h.1 q hq, h.2 q hq⟩,
      fun h => ⟨fun q hq => (h q hq).1, fun q hq => (h q hq).2⟩⟩

/-- As small as a deterministic automaton for the language can be, whatever the numbers of its states.
When nothing is accepted transitions could only be useless. -/
structure InMinimalForm (a : Automaton) : Prop where
  least : a.Least
  bare : a.language = 0 → a.transitionCount = 0

theorem InMinimalForm.of_canonical (h : a.Canonical) : InMinimalForm a where
  least := h.least
  bare hzero := by
    rcases h.live with hbare | hlive
    · rw [transitionCount, hbare]; rfl
    · exact absurd (hlive _ h.initial_lt) (not_live_initial_iff.mpr hzero)

/-- Trimming would make an automaton with a useless state smaller. -/
theorem Least.trimmed (h : a.Least) (ha : a.Valid) (hlive : a.Live a.initial) : a.Trimmed := by
  have hselects := ha.selects_useful hlive
  have hle : a.size ≤ a.useful.length := by
    have := h.2 _ ha.trim_valid (ha.trim_separated h.1) ha.trim_language
    rcases ha.trim_cases with ⟨-, heq⟩ | ⟨hdead, -⟩
    · rw [heq] at this
      exact this.trans_eq size_retain
    · exact absurd hlive hdead
  intro q hq
  exact ha.mem_useful.mp ((le_length_iff hselects.nodup hselects.lt).mp hle q hq)

theorem InMinimalForm.isTrimmed (h : InMinimalForm a) (ha : a.Valid) : isTrimmed a = true := by
  rw [isTrimmed_iff ha]
  by_cases hlive : a.Live a.initial
  · exact .inl (Least.trimmed h.least ha hlive)
  · have hzero := not_live_initial_iff.mp hlive
    have hone := h.least.size_eq_one ha hzero
    refine .inr ⟨hone, List.eq_nil_iff_forall_not_mem.mpr fun q hq => hlive ⟨[], ?_⟩, h.bare hzero⟩
    -- the only state is the initial one
    have hq := mem_accepting.mp hq
    have := lt_of_isAccepting hq
    have := ha.initial_lt
    obtain rfl : q = a.initial := by omega
    exact nil_mem_residual.mpr hq

end IntervalAutomata.Binary
