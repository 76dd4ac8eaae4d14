import IntervalAutomata.Automaton.Run
import IntervalAutomata.Journal
import IntervalAutomata.Text.Offset

/-!
Matching a deterministic automaton against text. Positions are byte offsets into the encoded text. A
missing transition means that no longer text can match, so the walk stops there; an automaton with a
known singleton is not walked at all, the text is compared instead. What the matcher looks at on the
way is kept as sightings.
-/

namespace IntervalAutomata

inductive Sighting where
  /-- Before looking from a start on. -/
  | attempt (start : Nat)
  /-- The transition looked up for the character at `offset`. -/
  | step (offset : Nat) (c : Char) (source : Nat) (target : Option Nat)
  /-- An accepting state, with the offset behind the text read so far. -/
  | accept (state stop : Nat)
  /-- A singleton matched without a walk. -/
  | singleton (stop : Nat)
  /-- A match that a search reports. -/
  | found (start stop : Nat)
deriving DecidableEq

/-- A match needs one path at most, so the automaton has to be deterministic. -/
structure Matcher where
  automaton : Automaton
  deterministic : automaton.deterministic = true

inductive MatchError where
  | notDeterministic
deriving DecidableEq

def MatchError.message : MatchError → String
  | notDeterministic => "matcher requires a deterministic automaton"

namespace Matcher

def ofAutomaton (a : Automaton) : Except MatchError Matcher :=
  if h : a.deterministic = true then .ok ⟨a, h⟩ else .error .notDeterministic

/-- From state `q` at `offset` through the whole text. -/
def acceptsFrom (m : Matcher) (q offset : Nat) : List Char → Journal Sighting Bool
  | [] => do
    let accepted := m.automaton.isAccepting q
    if accepted then Journal.note (.accept q offset)
    return accepted
  | c :: cs => do
    let target := m.automaton.step q c.toNat
    Journal.note (.step offset c q target)
    match target with
    | some p => m.acceptsFrom p (offset + c.utf8Size) cs
    | none => return false

/-- The whole text is in the language. -/
def accepts (m : Matcher) (text : String) : Journal Sighting Bool := do
  Journal.note (.attempt 0)
  match m.automaton.singleton with
  | some s =>
    let accepted := s == text
    if accepted then Journal.note (.singleton text.utf8ByteSize)
    return accepted
  | none => m.acceptsFrom m.automaton.initial 0 text.toList

/-- The end of the longest match through state `q` at `offset`, or `best` when there is none. -/
def longestFrom (m : Matcher) (q offset : Nat) (best : Option Nat) :
    List Char → Journal Sighting (Option Nat)
  | [] => return best
  | c :: cs => do
    let target := m.automaton.step q c.toNat
    Journal.note (.step offset c q target)
    match target with
    | some p =>
      let stop := offset + c.utf8Size
      if m.automaton.isAccepting p then do
        Journal.note (.accept p stop)
        m.longestFrom p stop (some stop) cs
      else m.longestFrom p stop best cs
    | none => return best

/-- The end of the longest match at `start`, where `rest` is the text from there on. -/
def longest (m : Matcher) (start : Nat) (rest : List Char) : Journal Sighting (Option Nat) := do
  Journal.note (.attempt start)
  match m.automaton.singleton with
  | some s =>
    if s.toList.isPrefixOf rest then do
      let stop := start + s.utf8ByteSize
      Journal.note (.singleton stop)
      return some stop
    else return none
  | none =>
    let q := m.automaton.initial
    if m.automaton.isAccepting q then do
      Journal.note (.accept q start)
      m.longestFrom q start (some start) rest
    else m.longestFrom q start none rest

/-- The end of the longest match at a byte offset; none beyond the text or inside a character. -/
def longestAt (m : Matcher) (text : String) (start : Nat) : Journal Sighting (Option Nat) :=
  match suffixAt? start text.toList with
  | some rest => m.longest start rest
  | none => return none

end Matcher

end IntervalAutomata
