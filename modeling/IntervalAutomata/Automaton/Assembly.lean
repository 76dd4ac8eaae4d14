import IntervalAutomata.Automaton.Basic
import IntervalAutomata.Exploration

/-!
From an exploration to an automaton: item numbers become state numbers and rows become states. The
start of an exploration is item 0, so it becomes the initial state.

Rows are written down one after the other, as items are expanded. A target that no row has named before
becomes a state, and the next free number is the one it has; so every transition that is added leads to
a state that is there.
-/

namespace IntervalAutomata

/-- Extends `last` over the entries that go on where it ends, with the same target. -/
def coalesceFrom (last : Transition) : List Transition → List Transition
  | [] => [last]
  | t :: rest =>
    if t.target = last.target && last.interval.touches t.interval then
      coalesceFrom ⟨⟨last.interval.min, Nat.max last.interval.max t.interval.max⟩, last.target⟩ rest
    else last :: coalesceFrom t rest

/-- Joins neighbouring entries with one target whose intervals overlap or touch. -/
def coalesce : List Transition → List Transition
  | [] => []
  | t :: rest => coalesceFrom t rest

/-- Extends `last` over the entries that begin right behind it, with the same target. -/
def joinAbuttingFrom (last : Transition) : List Transition → List Transition
  | [] => [last]
  | t :: rest =>
    if t.target = last.target && last.interval.abuts t.interval then
      joinAbuttingFrom ⟨⟨last.interval.min, t.interval.max⟩, last.target⟩ rest
    else last :: joinAbuttingFrom t rest

/-- Joins neighbouring entries with one target where the second interval begins behind the first. -/
def joinAbutting : List Transition → List Transition
  | [] => []
  | t :: rest => joinAbuttingFrom t rest

def Row.transitions (row : Row Nat Interval) : List Transition :=
  row.edges.map fun edge => ⟨edge.1, edge.2⟩

namespace Automaton

/-- Adds transitions that leave `source`, one after the other. -/
def addAll (a : Automaton) (source : Nat) (list : List Transition) : Automaton :=
  list.foldl (fun a t => a.addTransition source t.interval t.target) a

/-- A number that is not taken yet becomes a state. -/
def enroll (a : Automaton) (target : Nat) : Automaton :=
  if target < a.size then a else a.addState false

def markRow (a : Automaton) (q : Nat) (row : Row Nat Interval) : Automaton :=
  if row.accept then a.setAccept q true else a

/-- Writes down the row of state `q` edge by edge. -/
def addEdges (a : Automaton) (q : Nat) (row : Row Nat Interval) : Automaton :=
  row.edges.foldl (fun a edge => (a.enroll edge.2).addTransition q edge.1 edge.2) (a.markRow q row)

/-- Writes down the row of state `q` once all its targets are states, its edges arranged. -/
def addRow (arrange : List Transition → List Transition) (a : Automaton) (q : Nat)
    (row : Row Nat Interval) : Automaton :=
  (row.edges.foldl (fun a edge => a.enroll edge.2) (a.markRow q row)).addAll q
    (arrange row.transitions)

end Automaton

/-- Every edge becomes a transition. -/
def Exploration.toAutomaton {α : Type} {cmp : α → α → Ordering}
    (e : Exploration α Interval cmp) : Automaton :=
  e.rows.toList.zipIdx.foldl (fun a entry => a.addEdges entry.2 entry.1) .new

/-- Edges that continue one another become a single transition. -/
def Exploration.toJoined {α : Type} {cmp : α → α → Ordering}
    (e : Exploration α Interval cmp) : Automaton :=
  e.rows.toList.zipIdx.foldl (fun a entry => a.addRow joinAbutting entry.2 entry.1) .new

end IntervalAutomata
