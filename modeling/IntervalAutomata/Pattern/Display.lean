import IntervalAutomata.Interval
import IntervalAutomata.Pattern.Basic

/-!
Compact notation for patterns: `#` is the empty language, `()` the empty text, `~` complement and `&`
intersection. Every operator but concatenation brackets its operands and every character that the
notation uses is escaped, so only the grouping of concatenations is lost.
-/

namespace IntervalAutomata.Pattern

def reserved : List Char :=
  ['|', '&', '~', '*', '+', '?', '{', '}', '(', ')', '[', ']', '.', '\\', '#', '-', '"']

/-- A reserved character after a backslash, a visible one or a blank as itself, any other by code. -/
def displayChar (c : Char) : List Char :=
  if reserved.contains c then ['\\', c]
  else if isGraphic c || c == ' ' then [c]
  else ['\\', 'u', '{'] ++ Numeral.hex c.toNat ++ ['}']

def displayBounds (min : Nat) (max : Option Nat) : List Char :=
  let upper := match max with
    | some max => Nat.toDigits 10 max
    | none => []
  ['{'] ++ Nat.toDigits 10 min ++ [','] ++ upper ++ ['}']

def displayChars : Pattern → List Char
  | char value => displayChar value
  | range start stop => ['['] ++ displayChar start ++ ['-'] ++ displayChar stop ++ [']']
  | alternation left right => ['('] ++ left.displayChars ++ ['|'] ++ right.displayChars ++ [')']
  | concatenation left right => left.displayChars ++ right.displayChars
  | star inner => ['('] ++ inner.displayChars ++ [')', '*']
  | plus inner => ['('] ++ inner.displayChars ++ [')', '+']
  | repeated inner min max => ['('] ++ inner.displayChars ++ [')'] ++ displayBounds min max
  | intersection left right => ['('] ++ left.displayChars ++ ['&'] ++ right.displayChars ++ [')']
  | complement inner => ['~', '('] ++ inner.displayChars ++ [')']
  | anyChar => ['.']
  | empty => ['#']
  | emptyString => ['(', ')']

def display (p : Pattern) : String := String.ofList p.displayChars

end IntervalAutomata.Pattern
