import IntervalAutomata.Automaton.Basic

/-!
Build graphs. A node has edges that consume a symbol and successors that consume nothing. A fragment
is a pair of nodes and accepts what the paths from its entry to its exit spell.

Combinators only add nodes and wire the entries and exits they are given. None of them adds an edge
into an entry and out of an exit of the fragment it returns, apart from what its operands had already.
-/

namespace IntervalAutomata

structure Node where
  edges : List Transition := []
  successors : List Nat := []
deriving DecidableEq, Inhabited

structure Graph where
  nodes : Array Node := #[]
deriving DecidableEq

structure Fragment where
  entry : Nat
  exit : Nat
deriving DecidableEq, Inhabited

namespace Graph

def size (g : Graph) : Nat := g.nodes.size

def node (g : Graph) (n : Nat) : Node := g.nodes.getD n {}

/-- Appends a node without wires; its number is the old size. -/
def addNode (g : Graph) : Graph := ⟨g.nodes.push {}⟩

def connect (g : Graph) (source target : Nat) : Graph :=
  ⟨g.nodes.modify source fun n => { n with successors := n.successors ++ [target] }⟩

def addEdge (g : Graph) (source : Nat) (interval : Interval) (target : Nat) : Graph :=
  ⟨g.nodes.modify source fun n => { n with edges := n.edges ++ [⟨interval, target⟩] }⟩

/-! Requests from outside name nodes by number, and a number without a node is refused. -/

def connect? (g : Graph) (source target : Nat) : Option Graph :=
  if source < g.size then some (g.connect source target) else none

def addEdge? (g : Graph) (source : Nat) (interval : Interval) (target : Nat) : Option Graph :=
  if source < g.size then some (g.addEdge source interval target) else none

end Graph

end IntervalAutomata
