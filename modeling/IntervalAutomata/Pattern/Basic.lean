/-!
Patterns: regular expressions with intersection and complement. A literal is a balanced tree of
concatenations, built by pairing neighbours level by level, so that its depth grows with the logarithm
of its length.
-/

namespace IntervalAutomata

inductive Pattern where
  | char (value : Char)
  /-- Any character from `start` to `stop`; nothing when they are in the wrong order. -/
  | range (start stop : Char)
  | alternation (left right : Pattern)
  | concatenation (left right : Pattern)
  | star (inner : Pattern)
  | plus (inner : Pattern)
  /-- From `min` to `max` repetitions, without an upper limit when `max` is missing. -/
  | repeated (inner : Pattern) (min : Nat) (max : Option Nat)
  | intersection (left right : Pattern)
  | complement (inner : Pattern)
  | anyChar
  | empty
  | emptyString
deriving DecidableEq, Inhabited

namespace Pattern

def pairUp : List Pattern → List Pattern
  | left :: right :: rest => concatenation left right :: pairUp rest
  | rest => rest

/-- Pairs up until one pattern is left. Each round shortens the list. -/
def joinPairs : (fuel : Nat) → List Pattern → Pattern
  | _, [] => emptyString
  | _, [p] => p
  | fuel + 1, ps => joinPairs fuel (pairUp ps)
  | 0, p :: _ => p

/-- The pattern that matches exactly `cs`. -/
def literal (cs : List Char) : Pattern := joinPairs cs.length (cs.map char)

/-- Direct subpatterns, left to right. -/
def children : Pattern → List Pattern
  | alternation left right | concatenation left right | intersection left right => [left, right]
  | star inner | plus inner | repeated inner _ _ | complement inner => [inner]
  | char _ | range _ _ | anyChar | empty | emptyString => []

/-- The number of patterns on the longest path down to a leaf. -/
def depth : Pattern → Nat
  | alternation left right | concatenation left right | intersection left right =>
    Nat.max left.depth right.depth + 1
  | star inner | plus inner | repeated inner _ _ | complement inner => inner.depth + 1
  | char _ | range _ _ | anyChar | empty | emptyString => 1

def repeatWord (n : Nat) (word : List Char) : List Char :=
  if word.isEmpty then [] else (List.replicate n word).flatten

/--
The one word this pattern denotes, where its shape shows it. A pattern without such a word may still
denote a single one.
-/
def word? : Pattern → Option (List Char)
  | char value => some [value]
  | range start stop => if start = stop then some [start] else none
  | emptyString => some []
  | concatenation left right => do return (← left.word?) ++ (← right.word?)
  | alternation left right => do
    let word ← left.word?
    if (← right.word?) = word then some word else none
  | repeated inner min (some max) =>
    if min = max then inner.word?.map (repeatWord min) else none
  | _ => none

/-- The first repetition, parents before children and left before right, with inverted bounds. -/
def invertedBounds? : Pattern → Option (Nat × Nat)
  | repeated inner min (some max) =>
    if min > max then some (min, max) else inner.invertedBounds?
  | alternation left right | concatenation left right | intersection left right =>
    left.invertedBounds?.or right.invertedBounds?
  | star inner | plus inner | repeated inner _ none | complement inner => inner.invertedBounds?
  | char _ | range _ _ | anyChar | empty | emptyString => none

end Pattern

end IntervalAutomata
