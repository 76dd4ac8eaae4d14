import IntervalAutomata.Automaton.Acceptors
import IntervalAutomata.Graph.Flatten
import IntervalAutomata.Graph.Repetition

/-!
Union, concatenation and repetition of automata. The operands are embedded into a fresh build graph,
combined as fragments and flattened again, so loops through initial or accepting states of an operand
are as harmless as loops through entries and exits of fragments. Operands with known singletons are
combined as texts where that gives the answer at once.
-/

namespace IntervalAutomata.Automaton

/-- Accepts what either accepts. -/
def union (a b : Automaton) : Journal Event Automaton :=
  let general :=
    let (f, g) := Graph.embed {} a
    let (h, g) := g.embed b
    let (either, g) := g.alternation [f, h]
    g.flatten either
  match a.singleton, b.singleton with
  | some s, some t => if s = t then pure a else general
  | _, _ => general

/-- Accepts what splits into a text of `a` and a text of `b`. -/
def concatenation (a b : Automaton) : Journal Event Automaton :=
  match a.singleton, b.singleton with
  | some s, some t => pure (string (s ++ t))
  | _, _ =>
    let (f, g) := Graph.embed {} a
    let (h, g) := g.embed b
    let (both, g) := g.sequence [f, h]
    g.flatten both

def rewire (wire : Graph → Fragment → Fragment × Graph) (a : Automaton) : Journal Event Automaton :=
  let (f, g) := Graph.embed {} a
  let (wired, g) := wire g f
  g.flatten wired

def star (a : Automaton) : Journal Event Automaton := a.rewire Graph.zeroOrMore

def plus (a : Automaton) : Journal Event Automaton := a.rewire Graph.oneOrMore

/-- The language of `a` and the empty text. -/
def optional (a : Automaton) : Journal Event Automaton := a.rewire Graph.optional

/-- `min` to `max` rounds of `a` by unrolling. -/
def unroll (limits : Limits) (a : Automaton) (min : Nat) (max : Option Nat) : Build Automaton := do
  let (f, g) := Graph.embed {} a
  let (rounds, g) ← g.repetition limits f min max
  let result ← g.flatten rounds
  limits.checkStates result.size
  return result

/-- A number of rounds from `min` to `max`, any number from `min` on when `max` is missing. -/
def repetitionWith (limits : Limits) (a : Automaton) (min : Nat) (max : Option Nat) :
    Build Automaton :=
  match a.singleton, max with
  | _, none => a.unroll limits min none
  | text, some max =>
    if min > max then throw (.invertedBounds min max)
    else match text, min == max with
      | some s, true => do
        limits.checkProjected (s.length * min + 1)
        return string (String.ofList (Pattern.repeatWord min s.toList))
      | _, _ => a.unroll limits min (some max)

def repetition (a : Automaton) (min : Nat) (max : Option Nat) : Build Automaton :=
  a.repetitionWith {} min max

end IntervalAutomata.Automaton
