import IntervalAutomata.Automaton.Basic

/-!
Automata for the simplest languages, written down in minimal form. Marking them minimal is right
because each is what minimization would produce: states numbered breadth first, none of them useless,
no two with the same future.
-/

namespace IntervalAutomata.Automaton

/-- No text. -/
def empty : Automaton := { new with minimal := true }

/-- The empty text alone. -/
def emptyString : Automaton := ⟨#[{ accept := true }], 0, true, true, some ""⟩

/-- States `first`, `first + 1`, … in a chain that spells `cs` and accepts at its end. -/
def chain (first : Nat) : List Char → List State
  | [] => [{ accept := true }]
  | c :: cs => { transitions := [⟨.single c.toNat, first + 1⟩] } :: chain (first + 1) cs

/-- Exactly `text`. -/
def string (text : String) : Automaton :=
  ⟨(chain 0 text.toList).toArray, 0, true, true, some text⟩

/-- The texts of one symbol of `i`. Only a symbol that is a character makes the text known. -/
def interval (i : Interval) : Automaton where
  states := #[{ transitions := [⟨i, 1⟩] }, { accept := true }]
  initial := 0
  deterministic := true
  minimal := true
  singleton := if i.isSingle then (Symbol.char? i.min).map Char.toString else none

def char (c : Char) : Automaton := interval (.single c.toNat)

/-- One character of a range, or nothing when the range is inverted. -/
def charRange (start stop : Char) : Automaton :=
  match Interval.ofChars? start stop with
  | some i => interval i
  | none => empty

def anyChar : Automaton := interval .full

/-- Every text. -/
def anyString : Automaton :=
  ⟨#[{ accept := true, transitions := [⟨.full, 0⟩] }], 0, true, true, none⟩

end IntervalAutomata.Automaton
