import IntervalAutomata.Proofs.Emptiness
import IntervalAutomata.Proofs.MinimalForm

/-! # Every word

Totality is read off the minimal form: one accepting state that every symbol leads back to, along a
single transition. What has this form accepts every word. Conversely an automaton that accepts every
word accepts what `anyString` accepts, which is canonical and has this form; and canonical automata
with one language have the same states. So the form of the automaton that is asked about does not
matter, as long as it is not passed off as minimal already: minimization would leave it as it is. -/

namespace IntervalAutomata.Automaton

variable {a m : Automaton} {q : Nat} {w : List Nat}

/-- Among accepting states that are never left, every word is accepted. -/
theorem mem_residual_of_closed (inside : Nat → Prop) (haccepting : ∀ q, inside q → a.isAccepting q = true)
    (hclosed : ∀ q, inside q → ∀ c ≤ maxSymbol, ∃ r, a.Step q c r ∧ inside r) (hq : inside q)
    (hw : ∀ c ∈ w, c ≤ maxSymbol) : w ∈ a.residual q := by
  induction w generalizing q with
  | nil => exact nil_mem_residual.mpr (haccepting q hq)
  | cons c w ih =>
    obtain ⟨hc, hw⟩ := List.forall_mem_cons.mp hw
    obtain ⟨r, hstep, hr⟩ := hclosed q hq c hc
    exact cons_mem_residual.mpr ⟨r, hstep, ih hr hw⟩

theorem contains_full {c : Nat} (hc : c ≤ maxSymbol) : Interval.full.contains c = true :=
  Interval.contains_iff.mpr ⟨Nat.zero_le c, hc⟩

/-- One accepting state, and one transition that leads back to it on every symbol. -/
structure OneLoop (m : Automaton) : Prop where
  size_eq : m.size = 1
  accepting : m.isAccepting m.initial = true
  transitions_eq : m.transitions m.initial = [⟨.full, m.initial⟩]

theorem isTotal_iff_oneLoop : a.isTotal.value = true ↔ OneLoop a.minimize.value := by
  rw [isTotal, Journal.value_bind]
  simp only [Journal.value_pure, Bool.and_eq_true, beq_iff_eq]
  exact ⟨fun ⟨⟨hsize, haccepting⟩, hloop⟩ => ⟨hsize, haccepting, hloop⟩,
    fun ⟨hsize, haccepting, hloop⟩ => ⟨⟨hsize, haccepting⟩, hloop⟩⟩

theorem OneLoop.mem_language (h : OneLoop m) (hw : ∀ c ∈ w, c ≤ maxSymbol) : w ∈ m.language := by
  have hloop : ⟨.full, m.initial⟩ ∈ m.transitions m.initial := by
    rw [h.transitions_eq]
    exact .head _
  refine mem_residual_of_closed (· = m.initial) (fun q hq => hq ▸ h.accepting) ?_ rfl hw
  rintro q rfl c hc
  exact ⟨_, ⟨_, hloop, contains_full hc, rfl⟩, rfl⟩

theorem OneLoop.congr (h : OneLoop a) (hstates : a.states = m.states) (hinitial : a.initial = m.initial) :
    OneLoop m := by
  obtain ⟨hsize, haccepting, hloop⟩ := h
  rw [size, hstates] at hsize
  rw [isAccepting, state_congr hstates, hinitial] at haccepting
  rw [transitions, state_congr hstates, hinitial] at hloop
  exact ⟨hsize, haccepting, hloop⟩

theorem oneLoop_anyString : OneLoop anyString := ⟨rfl, rfl, rfl⟩

/-- All that accept every word have one language. -/
theorem Valid.language_eq (ha : a.Valid) (hm : m.Valid)
    (h : ∀ w, (∀ c ∈ w, c ≤ maxSymbol) → w ∈ a.language)
    (h' : ∀ w, (∀ c ∈ w, c ≤ maxSymbol) → w ∈ m.language) : a.language = m.language := by
  ext w
  exact ⟨fun hw => h' w (ha.le_maxSymbol_of_mem_residual hw),
    fun hw => h w (hm.le_maxSymbol_of_mem_residual hw)⟩

/-- Among canonical automata there is one form in which every word is accepted. -/
theorem Canonical.oneLoop_iff (hm : m.Canonical) :
    OneLoop m ↔ ∀ w, (∀ c ∈ w, c ≤ maxSymbol) → w ∈ m.language := by
  refine ⟨fun h _ => h.mem_language, fun h => ?_⟩
  have hany := canonical_anyString
  have hsame := hany.toValid.language_eq hm.toValid (fun _ => oneLoop_anyString.mem_language) h
  exact oneLoop_anyString.congr (hany.states_eq hm hsame) (hany.initial_eq.trans hm.initial_eq.symm)

theorem Truthful.isTotal_iff (ha : Truthful a) :
    a.isTotal.value = true ↔ ∀ w, (∀ c ∈ w, c ≤ maxSymbol) → w ∈ a.language := by
  obtain ⟨hcanonical, -, -, hlanguage⟩ := ha.canonical_minimize
  rw [isTotal_iff_oneLoop, hcanonical.oneLoop_iff, hlanguage]

/-- **The three tests on the structure are tests of the language**: whether it has no word, the empty
word alone, or every word over the alphabet. -/
theorem Truthful.structural_tests_exact (ha : Truthful a) :
    (a.isEmpty = true ↔ ∀ w, w ∉ a.language) ∧
    (a.isEmptyString = true ↔ ∀ w, w ∈ a.language ↔ w = []) ∧
    (a.isTotal.value = true ↔ ∀ w, (∀ c ∈ w, c ≤ maxSymbol) → w ∈ a.language) := by
  refine ⟨?_, ?_, ha.isTotal_iff⟩
  · rw [ha.toValid.isEmpty_iff]
    exact Set.eq_empty_iff_forall_notMem
  · rw [ha.toWellFormed.isEmptyString_iff, Language.ext_iff]
    simp only [Language.mem_one]

/-- Every word is accepted, along overlapping intervals, in one of two states that accept the same. One
branch leads nowhere, and one state is not reached. -/
def covering : Automaton :=
  .ofStates [⟨false, [⟨⟨97, 97⟩, 0⟩]⟩, ⟨true, [⟨⟨0, 0xFFFF⟩, 2⟩, ⟨⟨97, 99⟩, 0⟩, ⟨⟨98, maxSymbol⟩, 1⟩]⟩,
    ⟨true, [⟨⟨0, 200⟩, 1⟩, ⟨⟨201, maxSymbol⟩, 2⟩]⟩, ⟨true, [⟨.full, 0⟩]⟩] 1

theorem mem_language_covering (hw : ∀ c ∈ w, c ≤ maxSymbol) : w ∈ covering.language := by
  have hstep : ∀ {q c : Nat} (t : Transition), t ∈ covering.transitions q → t.interval.min ≤ c →
      c ≤ t.interval.max → covering.Step q c t.target :=
    fun t ht hmin hmax => ⟨t, ht, Interval.contains_iff.mpr ⟨hmin, hmax⟩, rfl⟩
  refine mem_residual_of_closed (· ∈ [1, 2]) (by decide) ?_ (.head _) hw
  intro q hq c hc
  rcases List.mem_pair.mp hq with rfl | rfl
  · rcases Nat.lt_or_ge c 98 with hlow | hhigh
    · exact ⟨2, hstep ⟨⟨0, 0xFFFF⟩, 2⟩ (by decide) (Nat.zero_le c) (by show c ≤ 0xFFFF; omega), by decide⟩
    · exact ⟨1, hstep ⟨⟨98, maxSymbol⟩, 1⟩ (by decide) hhigh hc, by decide⟩
  · rcases Nat.lt_or_ge c 201 with hlow | hhigh
    · exact ⟨1, hstep ⟨⟨0, 200⟩, 1⟩ (by decide) (Nat.zero_le c) (Nat.le_of_lt_succ hlow), by decide⟩
    · exact ⟨2, hstep ⟨⟨201, maxSymbol⟩, 2⟩ (by decide) hhigh hc, by decide⟩

theorem structural_tests_covering : Truthful covering ∧ covering.deterministic = false ∧
    covering.isEmpty = false ∧ covering.isEmptyString = false ∧ covering.isTotal.value = true := by
  have ha : Truthful covering := (wellFormed_ofStates (by decide)).truthful rfl
  obtain ⟨hempty, hemptyString, htotal⟩ := ha.structural_tests_exact
  refine ⟨ha, rfl, ?_, ?_, htotal.mpr fun _ => mem_language_covering⟩
  · rw [← Bool.not_eq_true, hempty]
    exact fun h => h [] (mem_language_covering (by simp))
  · rw [← Bool.not_eq_true, hemptyString]
    exact fun h => List.cons_ne_nil 97 [] ((h [97]).mp (mem_language_covering (by simp [maxSymbol])))

end IntervalAutomata.Automaton
