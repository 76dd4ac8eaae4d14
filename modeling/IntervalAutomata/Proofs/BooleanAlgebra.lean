import IntervalAutomata.Proofs.Acceptance
import IntervalAutomata.Proofs.Regular
import IntervalAutomata.Proofs.SubsetConstruction

/-! # The Boolean algebra of accepted texts

Making an operand deterministic keeps its language and is all that product and complement ask for, and
a complement is deterministic again, so none of the operations is ever refused. Their results are
well-formed and accept what the Boolean operation on acceptance says, text by text; hence they are
operands for one another. -/

namespace IntervalAutomata

namespace Automaton

variable {a b m : Automaton}

/-- **Deterministic automata have an intersection.** -/
theorem exists_intersection (ha : a.deterministic = true) (hb : b.deterministic = true) :
    ∃ m, (a.intersection b).outcome = .ok m := by
  unfold intersection intersectionInStep productOver
  rw [if_neg (by simp [ha, hb])]
  cases a.singleton with
  | some s => exact ⟨_, rfl⟩
  | none =>
    cases b.singleton with
    | some s => exact ⟨_, rfl⟩
    | none =>
      have hunlimited : ({} : Limits).maxStates = none := rfl
      obtain ⟨pairs, hpairs⟩ := Limits.explore_unlimited hunlimited
      exact ⟨_, Build.outcome_bind_eq_ok.mpr ⟨pairs, hpairs, Build.outcome_reported.mpr rfl⟩⟩

theorem differenceWith_eq_ok {limits : Limits} (h : (a.differenceWith limits b).outcome = .ok m) :
    ∃ n, b.complement.outcome = .ok n ∧ (a.intersectionInStep limits n).outcome = .ok m := by
  unfold differenceWith at h
  split at h
  · obtain ⟨_, h, -⟩ := Build.outcome_bind_eq_ok.mp h
    cases h
  · exact Build.outcome_bind_eq_ok.mp h

/-- **A difference accepts what only the first operand accepts**, whenever it is built. -/
theorem WellFormed.differenceWith (ha : a.WellFormed) (hb : b.WellFormed) {limits : Limits}
    (h : (a.differenceWith limits b).outcome = .ok m) :
    m.WellFormed ∧ ∀ w, w ∈ m.language ↔ w ∈ a.language ∧ w ∉ b.language := by
  obtain ⟨n, hn, h⟩ := differenceWith_eq_ok h
  obtain ⟨hn, hcomplement⟩ := hb.complement hn
  obtain ⟨hwell, hlanguage⟩ := ha.intersectionInStep hn h
  refine ⟨hwell, fun w => ?_⟩
  rw [hlanguage, Language.mem_inf, hcomplement]
  exact and_congr_right fun hw => and_iff_right (ha.toValid.le_maxSymbol_of_mem_residual hw)

/-- **Deterministic automata have a difference.** -/
theorem WellFormed.exists_difference (hb : b.WellFormed) (hda : a.deterministic = true)
    (hdb : b.deterministic = true) : ∃ m, (a.difference b).outcome = .ok m := by
  obtain ⟨n, hn⟩ := exists_complement hdb
  obtain ⟨m, hm⟩ := exists_intersection hda (hb.deterministic_complement hn)
  refine ⟨m, ?_⟩
  unfold Automaton.difference Automaton.differenceWith
  rw [if_neg (by simp [hda])]
  exact Build.outcome_bind_eq_ok.mpr ⟨n, hn, hm⟩

theorem le_maxSymbol_of_mem_symbols {text : String} {c : Nat} (h : c ∈ symbols text) :
    c ≤ maxSymbol := by
  obtain ⟨c, -, rfl⟩ := List.mem_map.mp h
  exact toNat_le_maxSymbol c

end Automaton

namespace Algebra

open Automaton

variable {a b m : Automaton}

/-- A well-formed automaton that accepts a text exactly when `p` holds. -/
def Decides (m : Automaton) (p : String → Bool) : Prop :=
  m.WellFormed ∧ ∀ text, (accepts m text).value = p text

theorem decides_of_language {p : String → Bool} (hm : m.WellFormed)
    (h : ∀ text, symbols text ∈ m.language ↔ p text = true) : Decides m p :=
  ⟨hm, fun text => by rw [value_accepts, Bool.eq_iff_iff, hm.run_iff, h]⟩

theorem accepts_iff (ha : a.WellFormed) (text : String) :
    (accepts a text).value = true ↔ symbols text ∈ a.language := by
  rw [value_accepts, ha.run_iff]

/-- A deterministic automaton with the language of an operand. -/
theorem determinize_operand (ha : a.WellFormed) :
    a.determinize.value.WellFormed ∧ a.determinize.value.deterministic = true ∧
      a.determinize.value.language = a.language :=
  ha.determinizeWith (outcome_determinize a)

/-- The product of the operands is never refused. -/
theorem outcome_intersection (ha : a.WellFormed) (hb : b.WellFormed) :
    (a.determinize.value.intersection b.determinize.value).outcome = .ok (intersection a b).value := by
  obtain ⟨m, hm⟩ := exists_intersection (determinize_operand ha).2.1 (determinize_operand hb).2.1
  have hvalue : (intersection a b).value =
    ((a.determinize.value.intersection b.determinize.value).getD .empty).value := rfl
  rw [hvalue, Build.value_getD _ hm, hm]

/-- The complement of the operand is never refused. -/
theorem outcome_complement (ha : a.WellFormed) :
    a.determinize.value.complement.outcome = .ok (complement a).value := by
  obtain ⟨m, hm⟩ := exists_complement (determinize_operand ha).2.1
  have hvalue : (complement a).value = (a.determinize.value.complement.getD .empty).value := rfl
  rw [hvalue, Build.value_getD _ hm, hm]

/-- The difference of the operands is never refused. -/
theorem outcome_difference (ha : a.WellFormed) (hb : b.WellFormed) :
    (a.determinize.value.difference b.determinize.value).outcome = .ok (difference a b).value := by
  obtain ⟨hq, hdq, -⟩ := determinize_operand hb
  obtain ⟨m, hm⟩ := hq.exists_difference (determinize_operand ha).2.1 hdq
  have hvalue : (difference a b).value =
    ((a.determinize.value.difference b.determinize.value).getD .empty).value := rfl
  rw [hvalue, Build.value_getD _ hm, hm]

/-! ## Acceptance text by text -/

theorem decides_union (ha : a.WellFormed) (hb : b.WellFormed) :
    Decides (union a b).value fun text => (accepts a text).value || (accepts b text).value := by
  obtain ⟨hwell, hlanguage⟩ := ha.union hb
  refine decides_of_language hwell fun text => ?_
  show symbols text ∈ (a.union b).value.language ↔ _
  rw [hlanguage, Language.mem_add, Bool.or_eq_true, accepts_iff ha, accepts_iff hb]

theorem decides_intersection (ha : a.WellFormed) (hb : b.WellFormed) :
    Decides (intersection a b).value fun text =>
      (accepts a text).value && (accepts b text).value := by
  obtain ⟨hp, -, hlp⟩ := determinize_operand ha
  obtain ⟨hq, -, hlq⟩ := determinize_operand hb
  obtain ⟨hwell, hlanguage⟩ := hp.intersectionInStep hq (outcome_intersection ha hb)
  refine decides_of_language hwell fun text => ?_
  rw [hlanguage, Language.mem_inf, hlp, hlq, Bool.and_eq_true, accepts_iff ha, accepts_iff hb]

theorem decides_complement (ha : a.WellFormed) :
    Decides (complement a).value fun text => !(accepts a text).value := by
  obtain ⟨hp, -, hlp⟩ := determinize_operand ha
  obtain ⟨hwell, hlanguage⟩ := hp.complement (outcome_complement ha)
  refine decides_of_language hwell fun text => ?_
  rw [hlanguage, hlp, Bool.not_eq_true', ← Bool.not_eq_true, accepts_iff ha]
  exact and_iff_right fun c => le_maxSymbol_of_mem_symbols

theorem decides_difference (ha : a.WellFormed) (hb : b.WellFormed) :
    Decides (difference a b).value fun text =>
      (accepts a text).value && !(accepts b text).value := by
  obtain ⟨hp, -, hlp⟩ := determinize_operand ha
  obtain ⟨hq, -, hlq⟩ := determinize_operand hb
  obtain ⟨hwell, hlanguage⟩ := hp.differenceWith hq (outcome_difference ha hb)
  refine decides_of_language hwell fun text => ?_
  rw [hlanguage, hlp, hlq, Bool.and_eq_true, Bool.not_eq_true', ← Bool.not_eq_true, accepts_iff ha,
    accepts_iff hb]

/-- **The operations form the Boolean algebra of accepted texts**, and where operands have to be
deterministic those that are made so are never refused. -/
theorem boolean_exact (ha : a.WellFormed) (hb : b.WellFormed) :
    (Decides (union a b).value fun text => (accepts a text).value || (accepts b text).value) ∧
    (Decides (intersection a b).value fun text =>
      (accepts a text).value && (accepts b text).value) ∧
    (Decides (complement a).value fun text => !(accepts a text).value) ∧
    (Decides (difference a b).value fun text =>
      (accepts a text).value && !(accepts b text).value) ∧
    let p := a.determinize.value
    let q := b.determinize.value
    (p.intersection q).outcome = .ok (intersection a b).value ∧
      p.complement.outcome = .ok (complement a).value ∧
      (p.difference q).outcome = .ok (difference a b).value :=
  ⟨decides_union ha hb, decides_intersection ha hb, decides_complement ha, decides_difference ha hb,
    outcome_intersection ha hb, outcome_complement ha, outcome_difference ha hb⟩

theorem boolean_branching_string : branching.WellFormed ∧ (string "ab").WellFormed ∧
    branching.deterministic = false ∧ (string "ab").singleton = some "ab" ∧
    Decides (difference branching (string "ab")).value fun text =>
      (accepts branching text).value && !(accepts (string "ab") text).value :=
  have hbranching : branching.WellFormed := wellFormed_ofStates (by decide)
  ⟨hbranching, wellFormed_string _, rfl, rfl,
    (boolean_exact hbranching (wellFormed_string _)).2.2.2.1⟩

end Algebra

end IntervalAutomata
