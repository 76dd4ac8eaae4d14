import IntervalAutomata.Graph.Copy
import IntervalAutomata.Graph.Fragment
import IntervalAutomata.Limits

/-!
Bounded repetition by unrolling: mandatory copies in a row, then optional copies nested into one
another, or one loop when there is no upper limit. The fragment itself serves as the first copy, and
all other copies are taken before anything is wired to it.

The cost is projected before the first copy is taken. A copy adds its own nodes and at most two more
for wiring, and only the targets of its consuming edges can become states.
-/

namespace IntervalAutomata.Graph

/-- `(f₁(f₂(…)?)?)?`, wired from the inside; nothing for an empty list. -/
def nested (g : Graph) : List Fragment → List Fragment × Graph
  | [] => ([], g)
  | f :: rest =>
    let (inner, g) := g.nested rest
    let (seq, g) := g.sequence (f :: inner)
    let (tail, g) := g.optional seq
    ([tail], g)

/-- From `min` to `max` rounds of `f`; callers make sure that the bounds are in order. -/
def repetition (limits : Limits) (g : Graph) (f : Fragment) (min : Nat) (max : Option Nat) :
    Build (Fragment × Graph) := do
  if max = some 0 then return g.emptyString
  let total := max.getD (min + 1)
  checkIds total
  let extent := g.extent f
  checkIds (total * (extent.nodes + 2) + g.size)
  limits.checkProjected (total * extent.targets + 1)
  let (more, g) := g.appendCopies (g.collect f) f (total - 1)
  let all := f :: more
  match max with
  | some _ =>
    let (tail, g) := g.nested (all.drop min)
    return g.sequence (all.take min ++ tail)
  | none =>
    let (tail, g) := g.zeroOrMore (all.getLastD f)
    return g.sequence (all.take min ++ [tail])

end IntervalAutomata.Graph
