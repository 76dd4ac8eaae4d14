import IntervalAutomata.Automaton.Run
import IntervalAutomata.Limits
import IntervalAutomata.Operation.Complement

/-!
The product of deterministic automata, for intersection and difference. A state of the product is a
pair of states and moves on the common parts of their intervals. With separate intervals on both sides
the common parts come out separate and in ascending order, and one walk along both lists finds them all.

An operand with a known singleton needs no product: the other operand is asked about that one text.
-/

namespace IntervalAutomata.Automaton

/-- By left number, then by right number. -/
def pairOrder : Nat × Nat → Nat × Nat → Ordering := compareLex (compareOn Prod.fst) (compareOn Prod.snd)

/-- The moves that both states make together. The lists are walked in step, past the interval that ends
first. -/
def movesInStep : List Transition → List Transition → List (Interval × (Nat × Nat))
  | s :: left, t :: right =>
    let later :=
      if s.interval.max < t.interval.max then movesInStep left (t :: right)
      else movesInStep (s :: left) right
    match s.interval.meet? t.interval with
    | some common => (common, (s.target, t.target)) :: later
    | none => later
  | _, _ => []
termination_by left right => left.length + right.length

def rowInStep (a b : Automaton) (q : Nat × Nat) : Row (Nat × Nat) Interval :=
  ⟨a.isAccepting q.1 && b.isAccepting q.2, movesInStep (a.transitions q.1) (b.transitions q.2)⟩

/-- The product over `row`, which tells what there is to see at a pair. -/
def productOver (row : Nat × Nat → Row (Nat × Nat) Interval) (limits : Limits) (a b : Automaton) :
    Build Automaton := do
  if !a.deterministic || !b.deterministic then throw .notDeterministic
  match a.singleton, b.singleton with
  | some s, _ => return if b.run s then a else empty
  | none, some s => return if a.run s then b else empty
  | none, none =>
    let pairs ← limits.explore pairOrder (a.size * b.size) row (a.initial, b.initial)
    let result := pairs.toJoined.trim
    report (.intersected a.size b.size pairs.items.size result.size)
    return result

/-- Accepts what both accept. -/
def intersectionInStep (limits : Limits) (a b : Automaton) : Build Automaton :=
  productOver (a.rowInStep b) limits a b

def intersection (a b : Automaton) : Build Automaton := intersectionInStep {} a b

/-- Accepts what `a` accepts and `b` rejects. -/
def differenceWith (limits : Limits) (a b : Automaton) : Build Automaton := do
  if !a.deterministic then throw .notDeterministic
  intersectionInStep limits a (← b.complement)

def difference (a b : Automaton) : Build Automaton := differenceWith {} a b

end IntervalAutomata.Automaton
