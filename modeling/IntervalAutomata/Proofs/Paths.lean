import IntervalAutomata.Automaton.Run
import IntervalAutomata.Proofs.Interval
import Mathlib.Computability.Language
import Mathlib.Order.CompletePartialOrder
import Mathlib.Order.ConditionallyCompleteLattice.Basic

/-! # Paths and languages of automata

The language of an automaton is what its accepting paths spell, symbol by symbol. Marks play no part in
it. What an automaton has to satisfy for its marks to be believed is stated here once: its numbers name
states, its lists ascend and hold proper intervals (`Valid`), and the determinism mark and a known
singleton agree with the transitions (`WellFormed`). -/

namespace IntervalAutomata

/-- The symbols of a text. -/
def symbols (text : String) : List Symbol := text.toList.map Char.toNat

namespace Automaton

/-- Some transition of `p` covers `c` and leads to `q`. -/
def Step (a : Automaton) (p : Nat) (c : Symbol) (q : Nat) : Prop :=
  ∃ t ∈ a.transitions p, t.interval.contains c = true ∧ t.target = q

/-- A path from one state to another and what it spells. -/
inductive Path (a : Automaton) : Nat → List Symbol → Nat → Prop
  | nil (p : Nat) : Path a p [] p
  | cons {p c r w q} : a.Step p c r → Path a r w q → Path a p (c :: w) q

/-- What is accepted from `p` on. -/
def residual (a : Automaton) (p : Nat) : Language Symbol :=
  {w | ∃ q, a.Path p w q ∧ a.isAccepting q = true}

def language (a : Automaton) : Language Symbol := a.residual a.initial

/-- No two intervals of one state overlap. -/
def Separated (a : Automaton) : Prop :=
  ∀ p, (a.transitions p).Pairwise fun s t => s.interval.overlaps t.interval = false

structure Valid (a : Automaton) : Prop where
  initial_lt : a.initial < a.size
  target_lt : ∀ p, ∀ t ∈ a.transitions p, t.target < a.size
  ascends : ∀ p, Ascends Transition.order (a.transitions p)
  proper : ∀ p, ∀ t ∈ a.transitions p, t.interval.Proper

structure WellFormed (a : Automaton) : Prop extends Valid a where
  deterministic_iff : a.deterministic = true ↔ a.Separated
  known : ∀ text, a.singleton = some text → a.language = {symbols text}

variable {a : Automaton} {p q r c : Nat} {u v w : List Nat}

/-! ## Paths -/

@[simp] theorem path_nil_iff : a.Path p [] q ↔ p = q :=
  ⟨fun h => by cases h; rfl, fun h => h ▸ .nil p⟩

theorem path_cons_iff : a.Path p (c :: w) q ↔ ∃ r, a.Step p c r ∧ a.Path r w q := by
  constructor
  · intro h
    cases h with
    | cons hs hp => exact ⟨_, hs, hp⟩
  · intro ⟨r, hs, hp⟩
    exact .cons hs hp

theorem path_append_iff : a.Path p (u ++ v) q ↔ ∃ r, a.Path p u r ∧ a.Path r v q := by
  induction u generalizing p with
  | nil => simp
  | cons c u ih =>
    simp only [List.cons_append, path_cons_iff, ih]
    constructor
    · intro ⟨s, hs, r, hu, hv⟩
      exact ⟨r, ⟨s, hs, hu⟩, hv⟩
    · intro ⟨r, ⟨s, hs, hu⟩, hv⟩
      exact ⟨s, hs, r, hu, hv⟩

theorem Path.append (hu : a.Path p u r) (hv : a.Path r v q) : a.Path p (u ++ v) q :=
  path_append_iff.mpr ⟨r, hu, hv⟩

theorem Path.snoc (hw : a.Path p w r) (hs : a.Step r c q) : a.Path p (w ++ [c]) q :=
  hw.append (.cons hs (.nil q))

/-! ## Residuals -/

@[simp] theorem nil_mem_residual : [] ∈ a.residual p ↔ a.isAccepting p = true := by
  constructor
  · intro ⟨q, hp, hq⟩
    rw [path_nil_iff.mp hp]; exact hq
  · intro h
    exact ⟨p, .nil p, h⟩

theorem cons_mem_residual : c :: w ∈ a.residual p ↔ ∃ q, a.Step p c q ∧ w ∈ a.residual q := by
  constructor
  · intro ⟨q, hp, hq⟩
    obtain ⟨r, hs, hp⟩ := path_cons_iff.mp hp
    exact ⟨r, hs, q, hp, hq⟩
  · intro ⟨r, hs, q, hp, hq⟩
    exact ⟨q, .cons hs hp, hq⟩

theorem append_mem_residual : u ++ v ∈ a.residual p ↔ ∃ q, a.Path p u q ∧ v ∈ a.residual q := by
  constructor
  · intro ⟨q, hp, hq⟩
    obtain ⟨r, hu, hv⟩ := path_append_iff.mp hp
    exact ⟨r, hu, q, hv, hq⟩
  · intro ⟨r, hu, q, hv, hq⟩
    exact ⟨q, hu.append hv, hq⟩

/-! ## Marks

Paths depend on the states alone, and validity on the initial state besides. -/

section

variable {b : Automaton}

theorem state_congr (h : a.states = b.states) (p : Nat) : a.state p = b.state p := by
  rw [state, state, h]

theorem step_congr (h : a.states = b.states) : a.Step p c q ↔ b.Step p c q := by
  rw [Step, Step, transitions, transitions, state_congr h]

theorem path_congr (h : a.states = b.states) : a.Path p w q ↔ b.Path p w q := by
  induction w generalizing p with
  | nil => rw [path_nil_iff, path_nil_iff]
  | cons c w ih => simp only [path_cons_iff, step_congr h, ih]

theorem residual_congr (h : a.states = b.states) : a.residual p = b.residual p := by
  ext w
  refine exists_congr fun q => and_congr (path_congr h) ?_
  rw [isAccepting, isAccepting, state_congr h]

theorem language_congr (h : a.states = b.states) (hi : a.initial = b.initial) :
    a.language = b.language := by
  rw [language, language, residual_congr h, hi]

theorem Separated.congr (ha : a.Separated) (h : a.states = b.states) : b.Separated := by
  intro p
  rw [transitions, ← state_congr h]
  exact ha p

theorem Valid.congr (ha : a.Valid) (h : a.states = b.states) (hi : a.initial = b.initial) :
    b.Valid := by
  have hsize : b.size = a.size := by rw [size, size, h]
  have htransitions : ∀ p, b.transitions p = a.transitions p := fun p => by
    rw [transitions, transitions, state_congr h]
  refine ⟨hi ▸ hsize ▸ ha.initial_lt, fun p => ?_, fun p => ?_, fun p => ?_⟩
  · rw [htransitions, hsize]; exact ha.target_lt p
  · rw [htransitions]; exact ha.ascends p
  · rw [htransitions]; exact ha.proper p

theorem WellFormed.congr (ha : a.WellFormed) (h : a.states = b.states) (hi : a.initial = b.initial)
    (hd : a.deterministic = b.deterministic)
    (hknown : ∀ text, b.singleton = some text → a.language = {symbols text}) : b.WellFormed where
  toValid := ha.toValid.congr h hi
  deterministic_iff := by
    rw [← hd]
    exact ha.deterministic_iff.trans ⟨fun hs => hs.congr h, fun hs => hs.congr h.symm⟩
  known text ht := (language_congr h hi).symm.trans (hknown text ht)

/-- States may be added, accept or be the initial one as long as the transitions stay and no text is
claimed. -/
theorem WellFormed.of_transitions (ha : a.WellFormed)
    (htransitions : ∀ p, b.transitions p = a.transitions p) (hsize : a.size ≤ b.size)
    (hinitial : b.initial < b.size) (hd : b.deterministic = a.deterministic)
    (hnone : b.singleton = none) : b.WellFormed where
  initial_lt := hinitial
  target_lt p t ht := Nat.lt_of_lt_of_le (ha.target_lt p t (htransitions p ▸ ht)) hsize
  ascends p := htransitions p ▸ ha.ascends p
  proper p t ht := ha.proper p t (htransitions p ▸ ht)
  deterministic_iff := by
    rw [hd, ha.deterministic_iff]
    simp only [Separated, htransitions]
  known text ht := by
    rw [hnone] at ht
    cases ht

end

/-! ## Bounds -/

theorem getElem_states (hp : p < a.states.size) : a.states[p] = a.state p := by
  rw [state, Array.getD_eq_getD_getElem?, Array.getElem?_eq_getElem hp, Option.getD_some]

theorem state_of_size_le (h : a.size ≤ p) : a.state p = {} := by
  simp [state, Array.getD_eq_getD_getElem?, Array.getElem?_eq_none h]

theorem Step.source_lt (h : a.Step p c q) : p < a.size := by
  obtain ⟨t, ht, -⟩ := h
  by_contra hp
  rw [transitions, state_of_size_le (Nat.le_of_not_lt hp)] at ht
  cases ht

theorem lt_of_isAccepting (h : a.isAccepting p = true) : p < a.size := by
  by_contra hp
  rw [isAccepting, state_of_size_le (Nat.le_of_not_lt hp)] at h
  cases h

theorem Valid.step_lt (ha : a.Valid) (h : a.Step p c q) : q < a.size := by
  obtain ⟨t, ht, -, rfl⟩ := h
  exact ha.target_lt p t ht

theorem Valid.path_lt (ha : a.Valid) (h : a.Path p w q) (hp : p < a.size) : q < a.size := by
  induction h with
  | nil => exact hp
  | cons hs _ ih => exact ih (ha.step_lt hs)

theorem Valid.step_le_maxSymbol (ha : a.Valid) (h : a.Step p c q) : c ≤ maxSymbol := by
  obtain ⟨t, ht, hc, -⟩ := h
  have := (ha.proper p t ht).max_le
  rw [Interval.contains_iff] at hc
  omega

/-- Only words over the alphabet are accepted. -/
theorem Valid.le_maxSymbol_of_mem_residual (ha : a.Valid) (h : w ∈ a.residual p) :
    ∀ c ∈ w, c ≤ maxSymbol := by
  induction w generalizing p with
  | nil => simp
  | cons c w ih =>
    obtain ⟨q, hs, hw⟩ := cons_mem_residual.mp h
    intro d hd
    rcases List.mem_cons.mp hd with rfl | hd
    · exact ha.step_le_maxSymbol hs
    · exact ih hw d hd

theorem valid_iff : a.Valid ↔ a.initial < a.size ∧ ∀ s ∈ a.states.toList,
    Ascends Transition.order s.transitions ∧
      ∀ t ∈ s.transitions, t.target < a.size ∧ t.interval.Proper := by
  constructor
  · intro ha
    refine ⟨ha.initial_lt, fun s hs => ?_⟩
    obtain ⟨q, hq⟩ := List.getElem?_of_mem hs
    have hs : a.transitions q = s.transitions := by
      rw [transitions, state, Array.getD_eq_getD_getElem?, ← Array.getElem?_toList, hq]
      rfl
    rw [← hs]
    exact ⟨ha.ascends q, fun t ht => ⟨ha.target_lt q t ht, ha.proper q t ht⟩⟩
  · intro ⟨hinitial, h⟩
    have hcases : ∀ q, a.transitions q = [] ∨
        ∃ s ∈ a.states.toList, a.transitions q = s.transitions := by
      intro q
      rcases Nat.lt_or_ge q a.size with hq | hq
      · refine .inr ⟨a.states[q], Array.mem_toList_iff.mpr (Array.getElem_mem hq), ?_⟩
        rw [transitions, state, Array.getD_eq_getD_getElem?, Array.getElem?_eq_getElem hq]
        rfl
      · exact .inl (by rw [transitions, state_of_size_le hq])
    refine ⟨hinitial, fun q => ?_, fun q => ?_, fun q => ?_⟩ <;>
      rcases hcases q with hnil | ⟨s, hs, heq⟩
    · simp [hnil]
    · exact fun t ht => ((h s hs).2 t (heq ▸ ht)).1
    · rw [hnil]; exact List.Pairwise.nil
    · exact heq ▸ (h s hs).1
    · simp [hnil]
    · exact fun t ht => ((h s hs).2 t (heq ▸ ht)).2

instance : DecidablePred Valid := fun _ => decidable_of_iff _ valid_iff.symm

/-! ## Determinism -/

theorem Valid.apart (ha : a.Valid) (hs : a.Separated) (p : Nat) : Apart (a.transitions p) :=
  apart_of_not_overlaps (ha.ascends p) (ha.proper p) (hs p)

theorem separated_of_apart (h : ∀ p, Apart (a.transitions p)) : a.Separated :=
  fun p => (h p).not_overlaps

theorem Valid.separated_iff (ha : a.Valid) : a.Separated ↔ ∀ p, Apart (a.transitions p) :=
  ⟨ha.apart, separated_of_apart⟩

theorem WellFormed.separated (ha : a.WellFormed) (hd : a.deterministic = true) : a.Separated :=
  ha.deterministic_iff.mp hd

/-- No state has two ways to go on with one symbol. -/
def Functional (a : Automaton) : Prop :=
  ∀ p c q r, a.Step p c q → a.Step p c r → q = r

theorem Valid.functional (ha : a.Valid) (hs : a.Separated) : a.Functional := by
  rintro p c q r ⟨s, hs', hc, rfl⟩ ⟨t, ht', hd, rfl⟩
  rw [(ha.apart hs p).unique hs' ht' hc hd]

theorem Functional.path_unique (ha : a.Functional) (hq : a.Path p w q) (hr : a.Path p w r) :
    q = r := by
  induction hq with
  | nil => exact path_nil_iff.mp hr
  | cons hs _ ih =>
    obtain ⟨s, hs', hr⟩ := path_cons_iff.mp hr
    exact ih (ha _ _ _ _ hs hs' ▸ hr)

theorem Functional.mem_residual_iff (ha : a.Functional) (hq : a.Path p u q) :
    u ++ v ∈ a.residual p ↔ v ∈ a.residual q := by
  rw [append_mem_residual]
  constructor
  · intro ⟨r, hr, hv⟩
    exact ha.path_unique hq hr ▸ hv
  · intro hv
    exact ⟨q, hq, hv⟩

end Automaton

end IntervalAutomata
