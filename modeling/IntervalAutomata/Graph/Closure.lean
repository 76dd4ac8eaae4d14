import IntervalAutomata.Graph.Basic

/-!
A buffer for following empty steps, used for one node after the other. Nodes that have been found carry
the number of the round as a stamp, and a stamp from an earlier round counts for nothing, so the stamps
are never cleared. Only nodes that have no stamp of the round are stacked, each of them once.
-/

namespace IntervalAutomata

structure Closure where
  /-- For each node the round in which it was last found. -/
  stamps : Array Nat
  generation : Nat
  members : Array Nat
  stack : List Nat

namespace Closure

def new (size : Nat) : Closure := ⟨Array.replicate size 0, 0, #[], []⟩

/-- Stamps and stacks a node that has no stamp of this round. -/
def visit (c : Closure) (n : Nat) : Closure :=
  if c.stamps.getD n c.generation = c.generation then c
  else { c with stamps := c.stamps.setIfInBounds n c.generation, stack := n :: c.stack }

/-- Takes nodes off the stack until none is left. -/
def follow (g : Graph) : (fuel : Nat) → Closure → Closure
  | fuel + 1, c =>
    match c.stack with
    | n :: stack =>
      follow g fuel
        ((g.node n).successors.foldl visit { c with members := c.members.push n, stack := stack })
    | [] => c
  | 0, c => c

/-- Finds the nodes that empty steps reach from `start`. Each of them is taken off the stack once. -/
def compute (g : Graph) (c : Closure) (start : Nat) : Closure :=
  let generation := c.generation + 1
  follow g (g.size + 1)
    { stamps := c.stamps.setIfInBounds start generation
      generation := generation
      members := #[]
      stack := start :: c.stack }

end Closure

end IntervalAutomata
