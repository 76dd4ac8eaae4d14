import IntervalAutomata.Operation.Trim
import IntervalAutomata.Report

/-!
Completion and complement of deterministic automata. When every state moves on every symbol, a text
ends in exactly one state, and swapping accepting and rejecting states swaps the language for its
complement.
-/

namespace IntervalAutomata.Automaton

/--
What an ascending list leaves uncovered from `next` on: stretches of the alphabet, and gaps between
intervals that lie beyond it.
-/
def gapsFrom (next : Nat) : List Transition → List Interval
  | [] => if next ≤ maxSymbol then [⟨next, maxSymbol⟩] else []
  | t :: rest =>
    let later := gapsFrom (Nat.max next (t.interval.max + 1)) rest
    if t.interval.min > next then ⟨next, t.interval.min - 1⟩ :: later else later

/--
Leads what state `q` misses to the sink. The first state that misses something adds the sink, with its
loop.
-/
def fillState (result : Automaton × Option Nat) (q : Nat) (s : State) : Automaton × Option Nat :=
  let gaps := gapsFrom 0 s.transitions
  if gaps.isEmpty then result
  else
    let (b, sink) := match result.2 with
      | some sink => (result.1, sink)
      | none =>
        let sink := result.1.size
        ((result.1.addState false).addTransition sink .full sink, sink)
    (b.addAll q (gaps.map fun gap => ⟨gap, sink⟩), some sink)

/-- Leads missing symbols to a rejecting sink, which is added only when some symbol is missing. -/
def filled (a : Automaton) : Automaton :=
  (a.states.toList.zipIdx.foldl (fun result entry => fillState result entry.2 entry.1) (a, none)).1

/-- An automaton in which every state moves on every symbol. -/
def totalize (a : Automaton) : Build Automaton :=
  if !a.deterministic then throw .notDeterministic else pure a.filled

/-- Swaps accepting and rejecting states. -/
def flip (a : Automaton) : Automaton :=
  { a with states := a.states.map fun (s : State) => { s with accept := !s.accept } }.forget

/-- Accepts exactly what `a` rejects. -/
def complement (a : Automaton) : Build Automaton := do
  let result := (← a.totalize).flip.trim
  report (.complemented a.size result.size)
  return result

end IntervalAutomata.Automaton
