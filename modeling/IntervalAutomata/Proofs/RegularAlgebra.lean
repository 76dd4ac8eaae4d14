import IntervalAutomata.Proofs.Acceptance
import IntervalAutomata.Proofs.Regular

/-! # The regular algebra of accepted texts

A word that is the symbols of a text is cut where the text is cut, so what concatenation and repetition
do to words of symbols they do to accepted texts. Operands may have edges into their initial and out of
their accepting states: each is embedded behind an entry and in front of an exit of its own. -/

namespace IntervalAutomata.Algebra

open Automaton

variable {a b m : Automaton} {l : Language Symbol} {limits : Limits} {min : Nat} {max : Option Nat}

/-- A well-formed automaton that accepts the texts of `l` and no others. -/
def Recognizes (m : Automaton) (l : Language Char) : Prop := m.WellFormed ∧ texts m = l

theorem recognizes_of_language (h : m.WellFormed ∧ m.language = l) :
    Recognizes m (readAs Char.toNat l) :=
  ⟨h.1, by rw [texts_eq h.1, h.2]⟩

theorem recognizes_concatenation (ha : a.WellFormed) (hb : b.WellFormed) :
    Recognizes (concatenation a b).value (texts a * texts b) := by
  rw [texts_eq ha, texts_eq hb, ← readAs_mul]
  exact recognizes_of_language (ha.concatenation hb)

theorem recognizes_star (ha : a.WellFormed) :
    Recognizes (star a).value (KStar.kstar (texts a)) := by
  rw [texts_eq ha, ← readAs_kstar]
  exact recognizes_of_language ha.toValid.star

theorem recognizes_plus (ha : a.WellFormed) :
    Recognizes (plus a).value (texts a * KStar.kstar (texts a)) := by
  rw [texts_eq ha, ← readAs_kstar, ← readAs_mul]
  exact recognizes_of_language ha.toValid.plus

theorem recognizes_optional (ha : a.WellFormed) :
    Recognizes a.optional.value (texts a + 1) := by
  have hadd : ∀ l : Language Symbol, readAs Char.toNat (l + 1) = readAs Char.toNat l + 1 :=
    fun l => congrArg (readAs Char.toNat l + ·) readAs_one
  rw [texts_eq ha, ← hadd]
  exact recognizes_of_language ha.toValid.optional

theorem recognizes_repetition (ha : a.WellFormed)
    (h : (a.repetitionWith limits min max).outcome = .ok m) :
    Recognizes m (rounds (texts a) min max) := by
  rw [texts_eq ha, ← readAs_rounds]
  exact recognizes_of_language (ha.repetitionWith h)

/-- **The operations form the regular algebra of accepted texts.** A repetition that is built spells
some number of rounds between its bounds; bounds in the wrong order are refused under any limits. -/
theorem regular_exact (ha : a.WellFormed) (hb : b.WellFormed) :
    Recognizes (concatenation a b).value (texts a * texts b) ∧
    Recognizes (star a).value (KStar.kstar (texts a)) ∧
    Recognizes (plus a).value (texts a * KStar.kstar (texts a)) ∧
    Recognizes a.optional.value (texts a + 1) ∧
    ∀ (limits : Limits) (min : Nat) (max : Option Nat),
      (∀ m, (a.repetitionWith limits min max).outcome = .ok m → m.WellFormed ∧
        ∀ text : String, (accepts m text).value = true ↔
          ∃ k, min ≤ k ∧ (∀ n, max = some n → k ≤ n) ∧ text.toList ∈ texts a ^ k) ∧
      ∀ n, max = some n → n < min →
        (a.repetitionWith limits min max).outcome = .error (.invertedBounds min n) := by
  refine ⟨recognizes_concatenation ha hb, recognizes_star ha, recognizes_plus ha,
    recognizes_optional ha, fun limits min max => ⟨fun m h => ?_, fun n hn hlt => ?_⟩⟩
  · obtain ⟨hwell, htexts⟩ := recognizes_repetition ha h
    refine ⟨hwell, fun text => ?_⟩
    rw [← mem_texts, htexts, mem_rounds]
  · rw [hn]
    exact repetitionWith_inverted hlt

/-- Loops through the initial and the accepting state. -/
def looping : Automaton :=
  .ofStates [⟨false, [⟨⟨97, 98⟩, 1⟩]⟩, ⟨true, [⟨⟨97, 97⟩, 0⟩, ⟨⟨97, 99⟩, 1⟩]⟩] 0

theorem regular_looping : looping.WellFormed ∧
    Recognizes (concatenation looping looping).value (texts looping * texts looping) ∧
    ∃ m, (repetition looping 1 (some 2)).outcome = .ok m ∧ ∀ text : String,
      (accepts m text).value = true ↔
        ∃ k, 1 ≤ k ∧ (∀ n, some 2 = some n → k ≤ n) ∧ text.toList ∈ texts looping ^ k := by
  have hwell : looping.WellFormed := wellFormed_ofStates (by decide)
  have hsome : (repetition looping 1 (some 2)).outcome.toOption.isSome = true := by decide +kernel
  refine ⟨hwell, (regular_exact hwell hwell).1, ?_⟩
  cases h : (repetition looping 1 (some 2)).outcome with
  | error err =>
    rw [h] at hsome
    cases hsome
  | ok m => exact ⟨m, rfl, (((regular_exact hwell hwell).2.2.2.2 {} 1 (some 2)).1 m h).2⟩

end IntervalAutomata.Algebra
