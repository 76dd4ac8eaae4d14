/-!
Finite sets as strictly ascending lists. A list has exactly one ascending form, and two ascending
lists with the same members are equal. Inserting and merging never disturb the order and keep one of
two equal values, so sorting by merging neighbours, round by round, also removes repetitions.
-/

namespace IntervalAutomata

section

variable {α : Type} (cmp : α → α → Ordering)

def insertAscending (x : α) : List α → List α
  | [] => [x]
  | y :: ys =>
    match cmp x y with
    | .lt => x :: y :: ys
    | .eq => y :: ys
    | .gt => y :: insertAscending x ys

/-- Puts `x` in front of the first value that is not smaller. -/
def insertSorted (x : α) : List α → List α
  | [] => [x]
  | y :: ys => if cmp y x = .lt then y :: insertSorted x ys else x :: y :: ys

/-- The values of a list in ascending order, each as often as it occurs. -/
def sorted (xs : List α) : List α := xs.foldr (insertSorted cmp) []

/-- Puts `x` in its place and leaves what follows it to `rest`. -/
def mergeHead (x : α) (rest : List α → List α) : List α → List α
  | [] => x :: rest []
  | y :: ys =>
    match cmp x y with
    | .lt => x :: rest (y :: ys)
    | .eq => x :: rest ys
    | .gt => y :: mergeHead x rest ys

/-- The union of two ascending lists. -/
def mergeAscending : List α → List α → List α
  | [], ys => ys
  | x :: xs, ys => mergeHead cmp x (mergeAscending xs) ys

def mergePairs : List (List α) → List (List α)
  | xs :: ys :: rest => mergeAscending cmp xs ys :: mergePairs rest
  | rest => rest

/-- Merges neighbours until one list is left. Each round shortens the list of lists. -/
def mergeRounds : (fuel : Nat) → List (List α) → List α
  | _, [] => []
  | _, [xs] => xs
  | fuel + 1, lists => mergeRounds fuel (mergePairs cmp lists)
  | 0, xs :: _ => xs

/-- The members of a list in ascending order, each once. -/
def ascending (xs : List α) : List α := mergeRounds cmp xs.length (xs.map fun x => [x])

end

end IntervalAutomata
