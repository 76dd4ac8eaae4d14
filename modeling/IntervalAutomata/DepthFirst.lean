/-!
Depth-first search over numbers. A number is taken off the stack, skipped if it was seen before, and
otherwise replaced by the numbers it leads to, the last one on top. Only what it leads to for the first
time is stacked, so there are no more rounds than starts and edges together. Numbers without an entry
in `seen` count as seen.
-/

namespace IntervalAutomata

/-- Everything found from the stack on, in the order in which it was first taken. -/
def depthFirst (next : Nat → List Nat) :
    (fuel : Nat) → (stack : List Nat) → (seen : Array Bool) → (found : List Nat) → List Nat
  | fuel + 1, n :: stack, seen, found =>
    if seen.getD n true then depthFirst next fuel stack seen found
    else
      depthFirst next fuel ((next n).reverse ++ stack) (seen.setIfInBounds n true) (n :: found)
  | _, _, _, found => found.reverse

end IntervalAutomata
