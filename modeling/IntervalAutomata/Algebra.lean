import IntervalAutomata.Compile
import IntervalAutomata.Match.Search
import IntervalAutomata.Operation.Analysis

/-!
Operations for any automata. The ones that need deterministic operands make them deterministic first,
so none of them refuses an operand and every result is an operand for every other.
-/

namespace IntervalAutomata.Algebra

def union (a b : Automaton) : Journal Event Automaton := a.union b

/-- Accepts what both accept. -/
def intersection (a b : Automaton) : Journal Event Automaton := do
  ((← a.determinize).intersection (← b.determinize)).getD .empty

/-- Accepts what `a` rejects. -/
def complement (a : Automaton) : Journal Event Automaton := do
  (← a.determinize).complement.getD .empty

/-- Accepts what `a` accepts and `b` rejects. -/
def difference (a b : Automaton) : Journal Event Automaton := do
  ((← a.determinize).difference (← b.determinize)).getD .empty

def concatenation (a b : Automaton) : Journal Event Automaton := a.concatenation b

def star (a : Automaton) : Journal Event Automaton := a.star

def plus (a : Automaton) : Journal Event Automaton := a.plus

def repetition (a : Automaton) (min : Nat) (max : Option Nat) : Build Automaton :=
  a.repetition min max

/-- The whole text is in the language. A deterministic automaton is matched, any other is simulated. -/
def accepts (a : Automaton) (text : String) : Journal Event Bool :=
  match Matcher.ofAutomaton a with
  | .ok m => return (m.accepts text).value
  | .error _ => do
    report (.simulating a.size)
    return a.run text

/-- All matches in a text. This needs a deterministic automaton. -/
def findAll (a : Automaton) (text : String) : Except MatchError (List (Nat × Nat)) := do
  return (← Matcher.ofAutomaton a).findAll text

end IntervalAutomata.Algebra
