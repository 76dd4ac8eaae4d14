import IntervalAutomata.Algebra
import IntervalAutomata.Proofs.Assembly
import IntervalAutomata.Proofs.Denotation
import IntervalAutomata.Proofs.Running

/-! # Accepted texts

A matcher walks through a deterministic automaton and a simulation follows any other one, and both
answer what a run answers. So the texts of a well-formed automaton, whichever way they are accepted, are
those whose symbols spell a word of its language. -/

namespace IntervalAutomata

namespace Matcher

/-- Sightings apart, matching from a state on is a walk. -/
theorem value_acceptsFrom (m : Matcher) (q offset : Nat) (cs : List Char) :
    (m.acceptsFrom q offset cs).value =
      (m.automaton.walk q (cs.map Char.toNat)).any m.automaton.isAccepting := by
  induction cs generalizing q offset with
  | nil =>
    rw [acceptsFrom, List.map_nil, Automaton.walk, Option.any_some]
    split <;> rfl
  | cons c cs ih =>
    rw [acceptsFrom, List.map_cons, Automaton.walk, Journal.value_bind]
    cases m.automaton.step q c.toNat with
    | none => rfl
    | some p => exact ih p _

theorem value_accepts (m : Matcher) (text : String) :
    (m.accepts text).value = m.automaton.run text := by
  rw [accepts, Automaton.run, Journal.value_bind]
  cases m.automaton.singleton with
  | some s =>
    dsimp only
    split <;> rfl
  | none =>
    rw [Automaton.runSymbols, if_pos m.deterministic]
    exact m.value_acceptsFrom _ _ _

end Matcher

namespace Algebra

variable {a : Automaton}

theorem value_accepts (a : Automaton) (text : String) : (accepts a text).value = a.run text := by
  unfold accepts Matcher.ofAutomaton
  split
  · rename_i m hm
    split at hm
    · obtain rfl := Except.ok.inj hm
      exact Matcher.value_accepts _ text
    · cases hm
  · rfl

/-- The texts that are accepted, character by character. -/
def texts (a : Automaton) : Language Char := {w | (accepts a (String.ofList w)).value = true}

theorem mem_texts {text : String} : text.toList ∈ texts a ↔ (accepts a text).value = true := by
  show (accepts a (String.ofList text.toList)).value = true ↔ _
  rw [String.ofList_toList]

/-- **A text is accepted when its symbols spell a word of the language.** -/
theorem texts_eq (ha : a.WellFormed) : texts a = readAs Char.toNat a.language := by
  ext w
  show (accepts a (String.ofList w)).value = true ↔ _
  rw [value_accepts, ha.run_iff, symbols, String.toList_ofList, mem_readAs]

end Algebra

/-- **Whatever evaluates a text follows the accepting paths**: the run, the operation for any automaton
and, where intervals do not overlap, the matcher, whose steps take the one transition there is. -/
theorem Automaton.WellFormed.evaluators_agree {a : Automaton} (ha : a.WellFormed) (text : String) :
    (a.run text = true ↔ ∃ q, a.Path a.initial (symbols text) q ∧ a.isAccepting q = true) ∧
    (Algebra.accepts a text).value = a.run text ∧
    ∀ hd : a.deterministic = true,
      Matcher.ofAutomaton a = .ok ⟨a, hd⟩ ∧
      ((⟨a, hd⟩ : Matcher).accepts text).value = a.run text ∧
      ∀ q c,
        (∃ t ∈ a.transitions q, t.interval.contains c = true ∧
            (∀ u ∈ a.transitions q, u.interval.contains c = true → u = t) ∧
            a.step q c = some t.target) ∨
          (∀ t ∈ a.transitions q, t.interval.contains c = false) ∧ a.step q c = none := by
  refine ⟨ha.run_iff text, Algebra.value_accepts a text, fun hd => ?_⟩
  exact ⟨dif_pos hd, Matcher.value_accepts _ text, ha.step_cases (ha.separated hd)⟩

/-- One of `a` to `c`, behind any number of the letters that follow them and before a dead end. -/
def Automaton.lastEarly : Automaton :=
  .ofStates [⟨false, [⟨⟨97, 99⟩, 1⟩, ⟨⟨100, 122⟩, 0⟩]⟩, ⟨true, [⟨⟨97, 122⟩, 2⟩]⟩, ⟨false, []⟩] 0

theorem Automaton.evaluators_agree_lastEarly : lastEarly.WellFormed ∧
    (∃ q, lastEarly.Path 0 (symbols "zeb") q ∧ lastEarly.isAccepting q = true) ∧
    (Algebra.accepts lastEarly "zeb").value = true ∧
    ((⟨lastEarly, rfl⟩ : Matcher).accepts "zeb").value = true ∧
    lastEarly.step 0 98 = some 1 ∧ lastEarly.step 2 98 = none := by
  have ha : lastEarly.WellFormed := wellFormed_ofStates (by decide)
  have haccepted : lastEarly.run "zeb" = true := by decide
  obtain ⟨hrun, hfacade, hmatcher⟩ := ha.evaluators_agree "zeb"
  obtain ⟨-, hmatched, -⟩ := hmatcher rfl
  exact ⟨ha, hrun.mp haccepted, hfacade.trans haccepted, hmatched.trans haccepted, rfl, rfl⟩

end IntervalAutomata
