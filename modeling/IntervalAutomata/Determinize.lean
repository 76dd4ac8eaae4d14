import IntervalAutomata.Automaton.Assembly
import IntervalAutomata.Automaton.Run
import IntervalAutomata.Interval.Segments
import IntervalAutomata.Limits

/-!
Subset construction. A state of the result is a set of states, as an ascending list. The transitions
that leave a set are cut into segments on which all of them are constant, and a sweep over the segments
keeps those that cover the segment it is at: some end and leave, some begin and come in. Sets are
numbered in the order of discovery; there are at most as many as there are subsets.
-/

namespace IntervalAutomata.Automaton

/-- From segment to segment, with the transitions that are `active` and those, in order, that have yet to
begin. Segments that nothing covers are skipped. -/
def sweepFrom : (active pending : List Transition) → List Interval → List (Interval × List Nat)
  | active, pending, cut :: cuts =>
    let remaining := active.filter fun t => cut.min ≤ t.interval.max
    let active := remaining ++ pending.takeWhile fun t => t.interval.min ≤ cut.min
    let later := sweepFrom active (pending.dropWhile fun t => t.interval.min ≤ cut.min) cuts
    if active.isEmpty then later
    else (cut, ascending compare (active.map (·.target))) :: later
  | _, _, [] => []

/-- The segments on which some transition leaves `set`, each with the set it leads to. -/
def sweep (a : Automaton) (set : List Nat) : List (Interval × List Nat) :=
  let pending := sorted Transition.order (set.flatMap a.transitions)
  sweepFrom [] pending (segments (boundaries (pending.map (·.interval))))

def subsetRow (a : Automaton) (set : List Nat) : Row (List Nat) Interval :=
  ⟨set.any a.isAccepting, a.sweep set⟩

/-- A deterministic automaton with the language of `a`; `a` itself if it is deterministic. -/
def determinizeWith (limits : Limits) (a : Automaton) : Build Automaton := do
  if a.deterministic then return a
  let sets ← limits.explore compare (1 <<< a.size) a.subsetRow [a.initial]
  let dfa := sets.toJoined.setSingleton a.singleton
  report (.determinized a.size dfa.size)
  return dfa

def determinize (a : Automaton) : Journal Event Automaton := (a.determinizeWith {}).getD .new

end IntervalAutomata.Automaton
