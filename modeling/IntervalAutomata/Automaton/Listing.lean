import IntervalAutomata.Automaton.Basic

/-!
Automata as text, one line for each state and each transition.
-/

namespace IntervalAutomata

/-- What a listing says about a state besides its number. -/
def stateRole (isInitial accept : Bool) : String :=
  match isInitial, accept with
  | true, true => " (initial, accept)"
  | true, false => " (initial)"
  | false, true => " (accept)"
  | false, false => ""

def Transition.listing (t : Transition) : String :=
  "  " ++ t.interval.display ++ s!" → S{t.target}"

/-- Each line ends with a line feed. -/
def joinLines (lines : List String) : String := String.join (lines.map (· ++ "\n"))

namespace Automaton

def listingLines (a : Automaton) : List String :=
  a.states.toList.zipIdx.flatMap fun (s, q) =>
    (s!"S{q}" ++ stateRole (q == a.initial) s.accept) :: s.transitions.map Transition.listing

def listing (a : Automaton) : String := joinLines a.listingLines

end Automaton

end IntervalAutomata
