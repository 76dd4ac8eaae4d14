/-!
Depth-first search for a cycle. A number is active from the moment it is entered until its row has been
looked through, and done from then on. The active numbers are those on the stack, each with the rest of
its row, and each of them leads to the one above it; so a row that leads to an active number closes a
cycle. Done numbers are passed over, since whatever they lead to has been looked through without
meeting a cycle. Every round takes one number out of a row or one off the stack, so there are no more
rounds than numbers and entries of rows together. Numbers without an entry in `stages` count as done.
-/

namespace IntervalAutomata

inductive Stage where
  | fresh
  | active
  | done
deriving DecidableEq

/-- Whether a search that stands at `stack` comes back to an active number. There is no answer where the
fuel runs out first. -/
def meetsCycle? (next : Nat → List Nat) :
    (fuel : Nat) → (stack : List (Nat × List Nat)) → (stages : Array Stage) → Option Bool
  | _, [], _ => some false
  | 0, _ :: _, _ => none
  | fuel + 1, (n, []) :: stack, stages =>
    meetsCycle? next fuel stack (stages.setIfInBounds n .done)
  | fuel + 1, (n, m :: row) :: stack, stages =>
    match stages.getD m .done with
    | .active => some true
    | .fresh =>
      meetsCycle? next fuel ((m, next m) :: (n, row) :: stack) (stages.setIfInBounds m .active)
    | .done => meetsCycle? next fuel ((n, row) :: stack) stages

end IntervalAutomata
