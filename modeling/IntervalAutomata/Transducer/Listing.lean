import IntervalAutomata.Automaton.Listing
import IntervalAutomata.Transducer.Basic

/-!
Transducers as text, one line for each state and each transition.
-/

namespace IntervalAutomata

def Output.display : Output → String
  | .identity => "*"
  | .epsilon => "ε"
  | .interval i => i.display

def Emission.listing (e : Emission) : String :=
  "  " ++ e.interval.display ++ " / " ++ e.output.display ++ s!" → S{e.target}"

def Transducer.listing (t : Transducer) : String :=
  joinLines <| t.states.toList.zipIdx.flatMap fun (s, q) =>
    (s!"S{q}" ++ stateRole (q == t.initial) s.accept) :: s.transitions.map Emission.listing

end IntervalAutomata
