import IntervalAutomata.Proofs.BooleanAlgebra
import IntervalAutomata.Proofs.Image
import IntervalAutomata.Proofs.MinimalForm
import IntervalAutomata.Proofs.Mutation

/-! # Marks stay truthful

Every operation drops the marks, recomputes them, or hands over those of an operand or a basic acceptor.
So a minimal mark is found only on what minimization has built, on basic acceptors, and on automata that
were handed on unchanged or only reduced, and all of these are canonical (`Truthful`). Each operation
keeps that, hence so does any sequence of operations (`Derived`). -/

namespace IntervalAutomata.Automaton

variable {a b m : Automaton} {limits : Limits} {order : List Nat} {i : Interval}
  {source target q min : Nat} {max : Option Nat}

/-! ## Basic acceptors -/

theorem truthful_empty : Truthful empty := ⟨wellFormed_empty, fun _ => canonical_empty⟩

theorem truthful_interval (hi : i.Proper) : Truthful (interval i) :=
  ⟨wellFormed_interval hi, fun _ => canonical_interval hi⟩

theorem truthful_charRange (start stop : Char) : Truthful (charRange start stop) := by
  unfold charRange Interval.ofChars?
  by_cases hle : start ≤ stop
  · rw [if_pos hle]
    exact truthful_interval ⟨hle, toNat_le_maxSymbol stop⟩
  · rw [if_neg hle]
    exact truthful_empty

/-! ## Changes in place -/

theorem Truthful.addTransition (ha : Truthful a) (hsource : source < a.size) (hi : i.Proper)
    (htarget : target < a.size) : Truthful (a.addTransition source i target) := by
  refine ⟨ha.toWellFormed.addTransition hsource hi htarget, fun hmark => ?_⟩
  by_cases hmem : (⟨i, target⟩ : Transition) ∈ a.transitions source
  · rw [addTransition_of_mem hmem] at hmark ⊢
    exact ha.canonical hmark
  · obtain ⟨-, -, hunmarked, -⟩ := addTransition_of_not_mem hsource hmem
    rw [hunmarked] at hmark
    cases hmark

theorem WellFormed.truthful_retain? (ha : a.WellFormed) (h : a.retain? order = some m) :
    Truthful m := by
  unfold retain? at h
  split at h
  · rename_i hkept
    obtain ⟨-, hinitial⟩ := Bool.and_eq_true_iff.mp hkept
    obtain rfl := Option.some.inj h
    exact (ha.toValid.wellFormed_retain (List.ne_nil_of_mem (List.contains_iff_mem.mp hinitial))).truthful
      rfl
  · cases h

/-! ## Normal forms -/

theorem WellFormed.truthful_trim (ha : a.WellFormed) : Truthful a.trim := by
  obtain ⟨-, heq⟩ | ⟨-, heq⟩ := ha.toValid.trim_cases
  · exact ha.trim.truthful (by rw [heq]; rfl)
  · rw [heq]
    exact truthful_empty

theorem Truthful.reduce (ha : Truthful a) : Truthful a.reduce := by
  refine ⟨ha.toWellFormed.reduce.1, fun hmark => (ha.canonical ?_).reduce.1⟩
  rw [ha.toValid.reduce_eq] at hmark
  exact hmark

theorem Truthful.determinizeWith (ha : Truthful a) (h : (a.determinizeWith limits).outcome = .ok m) :
    Truthful m := by
  obtain ⟨-, rfl⟩ | ⟨-, sets, hsets, rfl⟩ := ha.toValid.determinizeWith_eq_ok h
  · exact ha
  · refine (ha.toWellFormed.determinizeWith h).1.truthful ?_
    rw [ha.toValid.subsets_toJoined hsets]
    rfl

theorem Truthful.minimizeWith (ha : Truthful a) (h : (a.minimizeWith limits).outcome = .ok m) :
    Truthful m := by
  obtain ⟨-, rfl⟩ | ⟨-, hcanonical, hwell, -⟩ := ha.toWellFormed.minimizeWith_eq_ok h
  · exact ha
  · exact ⟨hwell, fun _ => hcanonical⟩

theorem truthful_compile {c : Compiler} {p : Pattern} (h : (c.compile p).outcome = .ok m) :
    Truthful m := by
  obtain ⟨_, _, _, hf, h⟩ := Compiler.compile_finishes h
  obtain ⟨known, hknown, -, hunmarked, -, rfl | h⟩ := Compiler.finish_cases hf h
  · exact hknown.truthful hunmarked
  · exact (hknown.truthful hunmarked).minimizeWith h

/-! ## Boolean operations -/

theorem Truthful.totalize (ha : Truthful a) (h : a.totalize.outcome = .ok m) : Truthful m := by
  obtain ⟨-, ⟨-, rfl⟩ | ⟨-, rfl⟩⟩ := ha.toWellFormed.totalize_cases h
  · exact ha
  · exact (ha.toWellFormed.totalize h).1.truthful rfl

theorem Truthful.complement (ha : Truthful a) (h : a.complement.outcome = .ok m) : Truthful m := by
  unfold Automaton.complement at h
  obtain ⟨b, hb, h⟩ := Build.outcome_bind_eq_ok.mp h
  obtain rfl := Build.outcome_reported.mp h
  exact (ha.toWellFormed.totalize hb).1.flip.truthful_trim

theorem Truthful.intersectionWith (ha : Truthful a) (hb : Truthful b)
    (h : (a.intersectionWith limits b).outcome = .ok m) : Truthful m := by
  obtain ⟨_, -, rfl⟩ | ⟨_, -, rfl⟩ | ⟨p, hwell, -, rfl⟩ :=
    ha.toWellFormed.intersectionWith_eq_ok hb.toWellFormed h
  · split
    · exact ha
    · exact truthful_empty
  · split
    · exact hb
    · exact truthful_empty
  · exact hwell.truthful_trim

theorem Truthful.intersectionInStep (ha : Truthful a) (hb : Truthful b)
    (h : (a.intersectionInStep limits b).outcome = .ok m) : Truthful m :=
  ha.intersectionWith hb (ha.toWellFormed.intersectionInStep_eq hb.toWellFormed limits ▸ h)

theorem Truthful.differenceWith (ha : Truthful a) (hb : Truthful b)
    (h : (a.differenceWith limits b).outcome = .ok m) : Truthful m := by
  obtain ⟨n, hn, h⟩ := differenceWith_eq_ok h
  exact ha.intersectionInStep (hb.complement hn) h

/-! ## Regular operations -/

theorem flatten_unmarked (g : Graph) (f : Fragment) : (g.flatten f).value.minimal = false :=
  (g.plain_toAutomaton f).minimal_eq

theorem union_cases (a b : Automaton) : (a.union b).value = a ∨ (a.union b).value.minimal = false := by
  unfold Automaton.union
  dsimp only
  split
  · split
    · exact .inl rfl
    · exact .inr (flatten_unmarked _ _)
  · exact .inr (flatten_unmarked _ _)

theorem Truthful.union (ha : Truthful a) (hb : Truthful b) : Truthful (a.union b).value := by
  obtain heq | hunmarked := union_cases a b
  · rw [heq]
    exact ha
  · exact (ha.toWellFormed.union hb.toWellFormed).1.truthful hunmarked

theorem concatenation_cases (a b : Automaton) :
    (∃ text, (a.concatenation b).value = string text) ∨ (a.concatenation b).value.minimal = false := by
  unfold Automaton.concatenation
  split
  · exact .inl ⟨_, rfl⟩
  · exact .inr (flatten_unmarked _ _)

theorem Truthful.concatenation (ha : Truthful a) (hb : Truthful b) :
    Truthful (a.concatenation b).value := by
  obtain ⟨text, heq⟩ | hunmarked := concatenation_cases a b
  · rw [heq]
    exact truthful_string text
  · exact (ha.toWellFormed.concatenation hb.toWellFormed).1.truthful hunmarked

theorem unroll_unmarked (h : (a.unroll limits min max).outcome = .ok m) : m.minimal = false := by
  unfold Automaton.unroll at h
  obtain ⟨_, -, h⟩ := Build.outcome_bind_eq_ok.mp h
  obtain ⟨flat, hflat, h⟩ := Build.outcome_bind_eq_ok.mp h
  obtain ⟨_, -, h⟩ := Build.outcome_bind_eq_ok.mp h
  obtain rfl := Build.outcome_pure_eq_ok.mp h
  rw [Build.outcome_lift] at hflat
  obtain rfl := Except.ok.inj hflat
  exact flatten_unmarked _ _

theorem Truthful.repetitionWith (ha : Truthful a)
    (h : (a.repetitionWith limits min max).outcome = .ok m) : Truthful m := by
  have hwell := (ha.toWellFormed.repetitionWith h).1
  unfold Automaton.repetitionWith at h
  split at h
  · exact hwell.truthful (unroll_unmarked h)
  · split at h
    · cases h
    split at h
    · obtain ⟨_, -, h⟩ := Build.outcome_bind_eq_ok.mp h
      obtain rfl := Build.outcome_pure_eq_ok.mp h
      exact truthful_string _
    · exact hwell.truthful (unroll_unmarked h)

/-! ## Sequences of operations -/

/-- What can be made from basic acceptors and patterns, operation by operation. Numbers have to name
states and intervals have to be proper. -/
inductive Derived : Automaton → Prop
  | new : Derived .new
  | empty : Derived .empty
  | emptyString : Derived .emptyString
  | string (text : String) : Derived (.string text)
  | interval {i : Interval} : i.Proper → Derived (.interval i)
  | char (c : Char) : Derived (.char c)
  | charRange (start stop : Char) : Derived (.charRange start stop)
  | anyChar : Derived .anyChar
  | anyString : Derived .anyString
  | addState {a : Automaton} (accept : Bool) : Derived a → Derived (a.addState accept)
  | setAccept {a : Automaton} {q : Nat} (accept : Bool) : Derived a → q < a.size →
      Derived (a.setAccept q accept)
  | setInitial {a : Automaton} {q : Nat} : Derived a → q < a.size → Derived (a.setInitial q)
  | addTransition {a : Automaton} {source target : Nat} {i : Interval} : Derived a →
      source < a.size → i.Proper → target < a.size → Derived (a.addTransition source i target)
  | retain {a m : Automaton} {order : List Nat} : Derived a → a.retain? order = some m → Derived m
  | compile {c : Compiler} {p : Pattern} {m : Automaton} : (c.compile p).outcome = .ok m → Derived m
  | determinize {a m : Automaton} {limits : Limits} : Derived a →
      (a.determinizeWith limits).outcome = .ok m → Derived m
  | minimize {a m : Automaton} {limits : Limits} : Derived a →
      (a.minimizeWith limits).outcome = .ok m → Derived m
  | trim {a : Automaton} : Derived a → Derived a.trim
  | reduce {a : Automaton} : Derived a → Derived a.reduce
  | totalize {a m : Automaton} : Derived a → a.totalize.outcome = .ok m → Derived m
  | complement {a m : Automaton} : Derived a → a.complement.outcome = .ok m → Derived m
  | intersection {a b m : Automaton} {limits : Limits} : Derived a → Derived b →
      (a.intersectionWith limits b).outcome = .ok m → Derived m
  | intersectionInStep {a b m : Automaton} {limits : Limits} : Derived a → Derived b →
      (a.intersectionInStep limits b).outcome = .ok m → Derived m
  | difference {a b m : Automaton} {limits : Limits} : Derived a → Derived b →
      (a.differenceWith limits b).outcome = .ok m → Derived m
  | union {a b : Automaton} : Derived a → Derived b → Derived (a.union b).value
  | concatenation {a b : Automaton} : Derived a → Derived b → Derived (a.concatenation b).value
  | star {a : Automaton} : Derived a → Derived a.star.value
  | plus {a : Automaton} : Derived a → Derived a.plus.value
  | optional {a : Automaton} : Derived a → Derived a.optional.value
  | repetition {a m : Automaton} {limits : Limits} {min : Nat} {max : Option Nat} : Derived a →
      (a.repetitionWith limits min max).outcome = .ok m → Derived m
  | image {t : Transducer} {a : Automaton} : t.Valid → Derived a → Derived (t.image a).value

/-- **No operation leaves a false mark behind.** -/
theorem Derived.truthful (h : Derived a) : Truthful a := by
  induction h with
  | new =>
    have hvalid : (ofStates [{}] 0).Valid := by decide
    exact (wellFormed_ofStates hvalid).truthful rfl
  | empty => exact truthful_empty
  | emptyString => exact ⟨wellFormed_emptyString, fun _ => canonical_emptyString⟩
  | string text => exact truthful_string text
  | interval hi => exact truthful_interval hi
  | char c => exact truthful_interval (proper_single c)
  | charRange start stop => exact truthful_charRange start stop
  | anyChar => exact truthful_interval (by decide)
  | anyString => exact ⟨wellFormed_anyString, fun _ => canonical_anyString⟩
  | addState accept _ ha => exact (ha.toWellFormed.addState accept).truthful rfl
  | setAccept accept _ hq ha => exact (ha.toWellFormed.setAccept hq accept).truthful rfl
  | setInitial _ hq ha => exact (ha.toWellFormed.setInitial hq).truthful rfl
  | addTransition _ hsource hi htarget ha => exact ha.addTransition hsource hi htarget
  | retain _ h ha => exact ha.toWellFormed.truthful_retain? h
  | compile h => exact truthful_compile h
  | determinize _ h ha => exact ha.determinizeWith h
  | minimize _ h ha => exact ha.minimizeWith h
  | trim _ ha => exact ha.toWellFormed.truthful_trim
  | reduce _ ha => exact ha.reduce
  | totalize _ h ha => exact ha.totalize h
  | complement _ h ha => exact ha.complement h
  | intersection _ _ h ha hb => exact ha.intersectionWith hb h
  | intersectionInStep _ _ h ha hb => exact ha.intersectionInStep hb h
  | difference _ _ h ha hb => exact ha.differenceWith hb h
  | union _ _ ha hb => exact ha.union hb
  | concatenation _ _ ha hb => exact ha.concatenation hb
  | star _ ha => exact ha.toValid.star.1.truthful (flatten_unmarked _ _)
  | plus _ ha => exact ha.toValid.plus.1.truthful (flatten_unmarked _ _)
  | optional _ ha => exact ha.toValid.optional.1.truthful (flatten_unmarked _ _)
  | repetition _ h ha => exact ha.repetitionWith h
  | image ht _ ha =>
    obtain ⟨b, hb, heq⟩ := ht.image_eq_trim ha.toValid
    rw [heq]
    exact hb.truthful_trim

/-- The operations for any automata make their operands deterministic first. -/
theorem Derived.algebra (ha : Derived a) (hb : Derived b) :
    Derived (Algebra.intersection a b).value ∧ Derived (Algebra.complement a).value ∧
      Derived (Algebra.difference a b).value := by
  have hwell := ha.truthful.toWellFormed
  have hwell' := hb.truthful.toWellFormed
  have hda : Derived a.determinize.value := .determinize ha (outcome_determinize a)
  have hdb : Derived b.determinize.value := .determinize hb (outcome_determinize b)
  exact ⟨.intersectionInStep hda hdb (Algebra.outcome_intersection hwell hwell'),
    .complement hda (Algebra.outcome_complement hwell),
    .difference hda hdb (Algebra.outcome_difference hwell hwell')⟩

/-- **Whatever is derived has truthful marks and ascending lists.** Numbers name states, the determinism
mark says whether intervals overlap, a known text is the whole language, and a minimal mark means the
canonical form. -/
theorem Derived.marks (h : Derived a) :
    a.initial < a.size ∧ (∀ q, ∀ t ∈ a.transitions q, t.target < a.size) ∧
    (∀ q, (a.transitions q).Pairwise fun s t =>
      s.interval.min < t.interval.min ∨ s.interval.min = t.interval.min ∧
        (s.interval.max < t.interval.max ∨ s.interval.max = t.interval.max ∧ s.target < t.target)) ∧
    (a.deterministic = true ↔
      ∀ q, (a.transitions q).Pairwise fun s t => s.interval.overlaps t.interval = false) ∧
    (∀ text, a.singleton = some text → ∀ w, w ∈ a.language ↔ w = symbols text) ∧
    (a.minimal = true → a.deterministic = true ∧ a.initial = 0 ∧ a.reachable = List.range a.size ∧
      (a.states = #[{}] ∨ ∀ q < a.size, a.Live q) ∧
      (∀ p < a.size, ∀ q < a.size, a.residual p = a.residual q → p = q) ∧
      ∀ q, Joined (a.transitions q)) := by
  have ha := h.truthful
  refine ⟨ha.initial_lt, ha.target_lt, fun q => ?_, ha.deterministic_iff, fun text ht w => ?_,
    fun hmark => ?_⟩
  · exact (ha.ascends q).imp Transition.order_lt_iff_numbers.mp
  · rw [ha.known text ht]
    exact Iff.rfl
  · have hcanonical := ha.canonical hmark
    exact ⟨ha.deterministic_iff.mpr hcanonical.separated, hcanonical.initial_eq,
      reachable_eq_range hcanonical.initial_eq hcanonical.breadthFirst, hcanonical.live,
      hcanonical.distinct, hcanonical.joined⟩

/-- A loop inside a longer interval. -/
def overlapping : Automaton :=
  ((new.addState true).addTransition 0 ⟨97, 99⟩ 1).addTransition 0 (.single 98) 0

theorem derived_overlapping : Derived overlapping :=
  .addTransition (.addTransition (.addState true .new) (by decide) (by decide) (by decide))
    (by decide) (by decide) (by decide)

theorem marks_overlapping : Derived overlapping ∧ overlapping.deterministic = false ∧
    ¬ overlapping.Separated ∧ Derived overlapping.star.value.minimize.value ∧
    overlapping.star.value.minimize.value.minimal = true ∧
    overlapping.star.value.minimize.value.initial = 0 ∧
    overlapping.star.value.minimize.value.Distinct := by
  have hdet : overlapping.deterministic = false := by decide
  have hstar : Derived overlapping.star.value := .star derived_overlapping
  have hminimized : Derived overlapping.star.value.minimize.value :=
    .minimize hstar (outcome_minimize _)
  have hmark : overlapping.star.value.minimize.value.minimal = true := by
    obtain ⟨hmarked, -⟩ | ⟨-, -, -, -, hmark, -⟩ :=
      hstar.truthful.minimizeWith_eq_ok (outcome_minimize _)
    · exact absurd ((flatten_unmarked _ _).symm.trans hmarked) Bool.false_ne_true
    · exact hmark
  obtain ⟨-, -, -, hoverlaps, -⟩ := derived_overlapping.marks
  obtain ⟨-, -, -, -, -, hcanonical⟩ := hminimized.marks
  obtain ⟨-, hinitial, -, -, hdistinct, -⟩ := hcanonical hmark
  exact ⟨derived_overlapping, hdet, fun h => absurd (hoverlaps.mpr h) (by rw [hdet]; decide), hminimized,
    hmark, hinitial, hdistinct⟩

end IntervalAutomata.Automaton
