import IntervalAutomata.Automaton.Basic
import IntervalAutomata.Exploration

/-!
Which states matter. A state is reachable when a path from the initial state leads to it and live when
a path from it leads to an accepting state; liveness is reachability along reversed transitions from
all accepting states at once. Numbers of states bound both explorations.
-/

namespace IntervalAutomata.Automaton

def targets (a : Automaton) (q : Nat) : List Nat := (a.transitions q).map (·.target)

/-- Reachable states, breadth first, successors in the order of the transitions. -/
def reachable (a : Automaton) : List Nat :=
  (exploreAll compare a.size (fun q => .plain (a.targets q)) [a.initial]).items.toList

/-- Entry `t` lists the sources of the transitions into `t`. -/
def predecessors (a : Automaton) : Array (List Nat) :=
  (List.range a.size).foldr
    (fun q sources =>
      (a.targets q).foldl (fun sources t => sources.modify t (q :: ·)) sources)
    (Array.replicate a.size [])

/-- For each state, whether it is live. -/
def live (a : Automaton) : Array Bool :=
  let sources := a.predecessors
  let seen := exploreAll compare a.size (fun q => .plain (sources.getD q [])) a.accepting
  (Array.range a.size).map seen.numbers.contains

def isLive (a : Automaton) (q : Nat) : Bool := a.live.getD q false

/-- Where each state goes: the last position at which `order` names it. -/
def places (order : List Nat) (size : Nat) : Array (Option Nat) :=
  order.zipIdx.foldl (fun places entry => places.setIfInBounds entry.1 (some entry.2))
    (Array.replicate size none)

/-- The transitions whose targets have a place, with the targets renumbered. -/
def relocate (places : Array (Option Nat)) (s : State) : State where
  accept := s.accept
  transitions := ascending Transition.order <| s.transitions.filterMap fun t =>
    (places.getD t.target none).map fun place => ⟨t.interval, place⟩

/--
Only the states in `order`, numbered by position. Transitions into other states disappear, which can
make the automaton deterministic.
-/
def retain (a : Automaton) (order : List Nat) : Automaton :=
  let places := places order a.size
  ofStates (order.map fun q => relocate places (a.state q))
    ((places.getD a.initial none).getD 0)

/-- Refused unless all states exist and the initial one is among them. -/
def retain? (a : Automaton) (order : List Nat) : Option Automaton :=
  if order.all (· < a.size) && order.contains a.initial then some (a.retain order) else none

end IntervalAutomata.Automaton
