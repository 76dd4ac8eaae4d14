import IntervalAutomata.DepthFirst
import IntervalAutomata.Graph.Basic

/-!
Searching a build graph, along all wires or along empty steps alone.
-/

namespace IntervalAutomata.Graph

/-- All that a node leads to: targets of edges, then successors. -/
def wires (g : Graph) (n : Nat) : List Nat := (g.node n).edges.map (·.target) ++ (g.node n).successors

def wireCount (g : Graph) : Nat :=
  g.nodes.toList.foldr (fun n count => n.edges.length + n.successors.length + count) 0

/-- Everything that `next` leads to from some nodes, where `next` follows only wires. -/
def search (g : Graph) (next : Nat → List Nat) (starts : List Nat) : List Nat :=
  depthFirst next (starts.length + g.wireCount + 1) starts (Array.replicate g.size false) []

/-- The nodes that empty steps reach from `n`, itself included. -/
def closure (g : Graph) (n : Nat) : List Nat := g.search (fun m => (g.node m).successors) [n]

end IntervalAutomata.Graph
