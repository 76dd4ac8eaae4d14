import IntervalAutomata.Graph.Search

/-!
Copying a fragment: every node that can be reached from its entry, and its exit. Copies are appended
in the order of a depth-first walk and all their wires lead to copies, so nothing that happens to the
fragment later shows in them.
-/

namespace IntervalAutomata

/-- What one more copy of a fragment costs. -/
structure Extent where
  nodes : Nat
  /-- Distinct nodes that consuming edges lead to. -/
  targets : Nat
deriving DecidableEq

namespace Graph

/-- The nodes of a fragment, the exit first. -/
def collect (g : Graph) (f : Fragment) : List Nat := g.search g.wires [f.exit, f.entry]

def extent (g : Graph) (f : Fragment) : Extent :=
  let nodes := g.collect f
  let targets := nodes.flatMap fun n => (g.node n).edges.map (·.target)
  ⟨nodes.length, (ascending compare targets).length⟩

/-- Appends copies of the nodes in `order`, wired among themselves. -/
def appendCopy (g : Graph) (order : List Nat) : Graph :=
  let rename (n : Nat) : Nat := g.size + order.idxOf n
  ⟨g.nodes ++ (order.map fun n =>
    { edges := (g.node n).edges.map fun e => ⟨e.interval, rename e.target⟩
      successors := (g.node n).successors.map rename : Node }).toArray⟩

/-- Where a fragment stands in a copy that starts at node `base`. -/
def placeCopy (base : Nat) (order : List Nat) (f : Fragment) : Fragment :=
  ⟨base + order.idxOf f.entry, base + order.idxOf f.exit⟩

def duplicate (g : Graph) (f : Fragment) : Fragment × Graph :=
  let order := g.collect f
  (placeCopy g.size order f, g.appendCopy order)

/-- `count` copies in a row. What they copy does not change while copies are appended. -/
def appendCopies (g : Graph) (order : List Nat) (f : Fragment) :
    (count : Nat) → List Fragment × Graph
  | 0 => ([], g)
  | count + 1 =>
    let (rest, copied) := (g.appendCopy order).appendCopies order f count
    (placeCopy g.size order f :: rest, copied)

end Graph

end IntervalAutomata
