import IntervalAutomata.Automaton.Listing
import IntervalAutomata.Match.Search
import IntervalAutomata.Text.Invisible
import IntervalAutomata.Text.Numeral

/-!
Sightings as text, one line each.
-/

namespace IntervalAutomata

/-- A character in single quotes, by name or by code when it cannot stand for itself. -/
def quoteChar (c : Char) : List Char :=
  let shown := match c with
    | '\x00' => ['\\', '0']
    | '\t' => ['\\', 't']
    | '\r' => ['\\', 'r']
    | '\n' => ['\\', 'n']
    | '\'' => ['\\', '\'']
    | '\\' => ['\\', '\\']
    | _ => if isInvisible c then ['\\', 'u', '{'] ++ Numeral.hex c.toNat ++ ['}'] else [c]
  ['\''] ++ shown ++ ['\'']

/-- A number, on the right of a field of three characters. -/
def offsetField (n : Nat) : List Char := Numeral.padLeft 3 ' ' (Nat.toDigits 10 n)

def Sighting.line : Sighting → String
  | attempt start => s!"attempt @{start}"
  | step offset c source target =>
    let reached := match target with
      | some q => s!"S{q}"
      | none => "✗"
    "  " ++ String.ofList (offsetField offset) ++ " " ++ String.ofList (quoteChar c) ++
      s!" S{source} → " ++ reached
  | accept state stop => s!"  accept S{state} @{stop}"
  | singleton stop => s!"  singleton @{stop}"
  | found start stop => s!"match {start}..{stop}"

def traceLines (sightings : List Sighting) : List String := sightings.map Sighting.line

def traceText (sightings : List Sighting) : String := joinLines (traceLines sightings)

end IntervalAutomata
