import IntervalAutomata.Interval

/-!
Cutting the alphabet. The boundary points of some intervals are their lower ends and the successors of
their upper ends. Between two neighbouring points no interval starts or stops, so each of the intervals
holds all of a segment or none of it, and looking at a segment's first symbol is enough.
-/

namespace IntervalAutomata

def boundaries (intervals : List Interval) : List Nat :=
  ascending compare (intervals.flatMap fun i => [i.min, i.max + 1])

def segments : List Nat → List Interval
  | p :: q :: points => ⟨p, q - 1⟩ :: segments (q :: points)
  | _ => []

end IntervalAutomata
