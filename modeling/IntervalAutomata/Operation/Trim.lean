import IntervalAutomata.Automaton.Acceptors
import IntervalAutomata.Automaton.Assembly
import IntervalAutomata.Automaton.Sweep

/-!
Removing what has no effect on the language: states that no accepted path visits, and transitions that
others cover or continue. Neither changes what is accepted, so a known singleton stays known.
-/

namespace IntervalAutomata.Automaton

/-- Only reachable live states, numbered breadth first. -/
def trim (a : Automaton) : Automaton :=
  let live := a.live
  if live.getD a.initial false then
    (a.retain (a.reachable.filter fun q => live.getD q false)).setSingleton a.singleton
  else empty

/-- By target, then by interval. -/
def byTarget : Transition → Transition → Ordering :=
  compareLex (compareOn (·.target)) (fun s t => Interval.order s.interval t.interval)

/-- The fewest transitions for the same moves, by target. -/
def reducedTransitions (s : State) : List Transition := coalesce (ascending byTarget s.transitions)

/-- As many states as `a` has, accepting where those of `a` do, without transitions. -/
def blank (a : Automaton) : Automaton :=
  a.states.toList.zipIdx.foldl
    (fun b entry => (if entry.2 = 0 then b else b.addState false).setAccept entry.2 entry.1.accept) .new

/-- Adds the reduced transitions of all states of `a` to `b`. -/
def addReduced (a b : Automaton) : Automaton :=
  a.states.toList.zipIdx.foldl (fun b entry => b.addAll entry.2 (reducedTransitions entry.1)) b

/-- Merges overlapping and touching intervals that share a target. -/
def reduce (a : Automaton) : Automaton :=
  let result := a.addReduced (a.blank.setInitial a.initial)
  let marked := if a.minimal then result.markMinimal else result
  match a.singleton with
  | some text => marked.setSingleton (some text)
  | none => marked

end IntervalAutomata.Automaton
