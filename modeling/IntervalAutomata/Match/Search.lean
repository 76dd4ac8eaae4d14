import IntervalAutomata.Match.Matcher

/-!
Searching a text for matches, leftmost first and as long as possible, without overlap. After a match
the search goes on at its end. An empty match right where the previous match ended is passed over, and
after an empty match the search moves on by one character, so every step of the search shortens the
text that is left.
-/

namespace IntervalAutomata

/-- Where a search stands. There is no rest once the search has moved past the end of the text. -/
structure Search where
  offset : Nat
  rest : Option (List Char)
  /-- The end of the previous match. -/
  lastEnd : Option Nat

namespace Search

def start (text : String) : Search := ⟨0, some text.toList, none⟩

/-- One character further on. -/
def advance (offset : Nat) (lastEnd : Option Nat) : List Char → Search
  | [] => ⟨offset + 1, none, lastEnd⟩
  | c :: cs => ⟨offset + c.utf8Size, some cs, lastEnd⟩

/-- The end of the match to report at `offset`, where `rest` is the text from there on. -/
def matchHere (m : Matcher) (offset : Nat) (lastEnd : Option Nat) (rest : List Char) :
    Journal Sighting (Option Nat) := do
  match ← m.longest offset rest with
  | some stop =>
    if stop = offset && lastEnd = some offset then return none
    else do
      Journal.note (.found offset stop)
      return some stop
  | none => return none

/-- Where the search goes on after a match from `offset` to `stop`. -/
def resume (offset stop : Nat) (rest : List Char) : Search :=
  if stop = offset then advance offset (some stop) rest
  else ⟨stop, suffixAt? (stop - offset) rest, some stop⟩

/-- The next match at or behind `offset`, where `rest` is the text from there on. -/
def nextFrom (m : Matcher) (offset : Nat) (lastEnd : Option Nat) :
    List Char → Journal Sighting (Option (Nat × Nat) × Search)
  | [] => do
    match ← matchHere m offset lastEnd [] with
    | some stop => return (some (offset, stop), resume offset stop [])
    | none => return (none, advance offset lastEnd [])
  | c :: cs => do
    match ← matchHere m offset lastEnd (c :: cs) with
    | some stop => return (some (offset, stop), resume offset stop (c :: cs))
    | none => nextFrom m (offset + c.utf8Size) lastEnd cs

/-- The next match, if there is one, and where the search stands afterwards. -/
def next (m : Matcher) (s : Search) : Journal Sighting (Option (Nat × Nat) × Search) :=
  match s.rest with
  | some rest => nextFrom m s.offset s.lastEnd rest
  | none => return (none, s)

/-- All matches from here on, at most `fuel` of them. -/
def collect (m : Matcher) : (fuel : Nat) → Search → List (Nat × Nat)
  | 0, _ => []
  | fuel + 1, s =>
    match (s.next m).value with
    | (some found, s) => found :: collect m fuel s
    | (none, _) => []

end Search

/-- All matches in a text; each starts further on, so there is at most one for each boundary. -/
def Matcher.findAll (m : Matcher) (text : String) : List (Nat × Nat) :=
  Search.collect m (text.length + 1) (Search.start text)

end IntervalAutomata
