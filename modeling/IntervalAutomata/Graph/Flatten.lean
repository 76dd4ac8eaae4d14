import IntervalAutomata.Automaton.Assembly
import IntervalAutomata.Graph.Closure
import IntervalAutomata.Graph.Search
import IntervalAutomata.Report

/-!
From a fragment to an automaton without empty steps. Only the entry and the targets of consuming edges
become states; all other nodes are looked through. A state accepts when the exit is among the nodes
that empty steps reach from it, and it has every consuming edge that leaves one of these nodes.
-/

namespace IntervalAutomata.Graph

/-- Edges in ascending order, so that states are numbered by interval and not by wiring. -/
def outlookOn (g : Graph) (exit : Nat) (reached : List Nat) : Row Nat Interval :=
  let edges := ascending Transition.order (reached.flatMap fun m => (g.node m).edges)
  ⟨reached.contains exit, edges.map fun e => (e.interval, e.target)⟩

/-- What there is to see at a node through all that empty steps reach from it. -/
def outlook (g : Graph) (exit n : Nat) : Row Nat Interval := g.outlookOn exit (g.closure n)

/-- The same, with a buffer that is handed on. -/
def outlookNext (g : Graph) (exit : Nat) (c : Closure) (n : Nat) : Row Nat Interval × Closure :=
  let c := c.compute g n
  (g.outlookOn exit c.members.toList, c)

def toAutomaton (g : Graph) (f : Fragment) : Automaton :=
  (exploreCarrying compare (g.outlookNext f.exit) g.size (.new g.size) f.entry).toAutomaton

def flatten (g : Graph) (f : Fragment) : Journal Event Automaton := do
  let a := g.toAutomaton f
  report (.flattened g.size a.size a.transitionCount a.deterministic)
  return a

end IntervalAutomata.Graph
