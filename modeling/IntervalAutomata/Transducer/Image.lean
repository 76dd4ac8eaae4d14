import IntervalAutomata.Graph.Flatten
import IntervalAutomata.Operation.Product
import IntervalAutomata.Transducer.Basic

/-!
The image of an automaton under a transducer: everything the transducer emits while it reads a text
that the automaton accepts. Both run together; a pair of states becomes a node of a build graph that
consumes what is emitted, so an empty output is an empty step.
-/

namespace IntervalAutomata.Transducer

/-- The transducer that runs as `a` does and emits nothing. -/
def ofAutomaton (a : Automaton) : Transducer where
  states := a.states.map fun s =>
    { accept := s.accept
      transitions := s.transitions.map fun t => ⟨t.interval, .epsilon, t.target⟩ }
  initial := a.initial

/-- What an output adds for consumed symbols from `common`: an interval, or nothing. -/
def emitted (common : Interval) : Output → Option Interval
  | .identity => some common
  | .epsilon => none
  | .interval i => some i

def imageRow (t : Transducer) (a : Automaton) (q : Nat × Nat) : Row (Nat × Nat) (Option Interval) :=
  ⟨t.isAccepting q.1 && a.isAccepting q.2,
    (t.transitions q.1).flatMap fun e => (a.transitions q.2).filterMap fun s =>
      (e.interval.meet? s.interval).map fun common =>
        (emitted common e.output, (e.target, s.target))⟩

/-- Node 0 is the exit and the other nodes are the items, in order. -/
def imageNode (row : Row Nat (Option Interval)) : Node where
  edges := row.edges.filterMap fun edge => edge.1.map fun i => ⟨i, edge.2 + 1⟩
  successors := (if row.accept then [0] else []) ++
    row.edges.filterMap fun edge => if edge.1.isNone then some (edge.2 + 1) else none

def image (t : Transducer) (a : Automaton) : Journal Event Automaton := do
  let pairs := exploreAll Automaton.pairOrder (t.size * a.size) (imageRow t a) [(t.initial, a.initial)]
  let g : Graph := ⟨#[({} : Node)] ++ pairs.rows.map imageNode⟩
  let result := (← g.flatten ⟨1, 0⟩).trim
  report (.transduced pairs.items.size result.size)
  return result

end IntervalAutomata.Transducer
