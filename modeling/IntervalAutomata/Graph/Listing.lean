import IntervalAutomata.Automaton.Listing
import IntervalAutomata.Graph.Basic

/-!
Build graphs as text, one line for each node: consuming edges first, then empty steps.
-/

namespace IntervalAutomata.Graph

def wiresListing (n : Node) : String :=
  let edges := n.edges.map fun e => e.interval.display ++ s!" → N{e.target}"
  let steps := n.successors.map fun s => s!"N{s}"
  match edges, steps with
  | [], [] => "∅"
  | _, [] => ", ".intercalate edges
  | [], _ => "ε → " ++ ", ".intercalate steps
  | _, _ => ", ".intercalate edges ++ " | ε → " ++ ", ".intercalate steps

def listing (g : Graph) : String :=
  joinLines (g.nodes.toList.zipIdx.map fun (n, i) => s!"N{i}: " ++ wiresListing n)

end IntervalAutomata.Graph
