import IntervalAutomata.Interval

/-!
Automata whose transitions carry intervals. States are numbered by position. Each state lists its
transitions in ascending order, by interval and then by target, without repetition.

Three marks travel with an automaton. `deterministic` says that no state has overlapping intervals: in
an ascending list an overlap always shows between neighbours, so adding a transition only has to look
at the two entries beside it. `minimal` and `singleton` record what has been established about the
language, and every change to the automaton drops both.
-/

namespace IntervalAutomata

structure Transition where
  interval : Interval
  target : Nat
deriving DecidableEq, Inhabited

/-- By interval, then by target. -/
def Transition.order : Transition → Transition → Ordering :=
  compareLex (fun s t => Interval.order s.interval t.interval) (compareOn (·.target))

structure State where
  accept : Bool := false
  transitions : List Transition := []
deriving DecidableEq, Inhabited

/-- Every interval of an ascending list ends before the next one starts. -/
def separate : List Transition → Bool
  | s :: t :: rest => s.interval.max < t.interval.min && separate (t :: rest)
  | _ => true

structure Automaton where
  states : Array State
  initial : Nat
  deterministic : Bool
  minimal : Bool
  /-- The one text of the language, where that is known. -/
  singleton : Option String
deriving DecidableEq

namespace Automaton

def size (a : Automaton) : Nat := a.states.size

/-- A number without a state stands for a state that rejects everything. -/
def state (a : Automaton) (q : Nat) : State := a.states.getD q {}

def transitions (a : Automaton) (q : Nat) : List Transition := (a.state q).transitions

def isAccepting (a : Automaton) (q : Nat) : Bool := (a.state q).accept

def accepting (a : Automaton) : List Nat := (List.range a.size).filter a.isAccepting

def transitionCount (a : Automaton) : Nat :=
  a.states.toList.foldr (fun s count => s.transitions.length + count) 0

/-- Finished states with a truthful determinism mark and nothing claimed about the language. -/
def ofStates (states : List State) (initial : Nat) : Automaton where
  states := states.toArray
  initial := initial
  deterministic := states.all fun s => separate s.transitions
  minimal := false
  singleton := none

/-- One initial state that accepts nothing. -/
def new : Automaton := ⟨#[{}], 0, true, false, none⟩

def forget (a : Automaton) : Automaton := { a with minimal := false, singleton := none }

/-- Appends a state; its number is the old size. -/
def addState (a : Automaton) (accept : Bool) : Automaton :=
  { a with states := a.states.push { accept := accept } }.forget

def setAccept (a : Automaton) (q : Nat) (accept : Bool) : Automaton :=
  { a with states := a.states.modify q fun s => { s with accept := accept } }.forget

def setInitial (a : Automaton) (q : Nat) : Automaton := { a with initial := q }.forget

/-- Whether `t` overlaps the entry before or the entry after its place in an ascending list. -/
def overlapsNeighbour (t : Transition) (list : List Transition) : Bool :=
  let before := list.takeWhile fun s => Transition.order s t == .lt
  let after := list.dropWhile fun s => Transition.order s t == .lt
  before.getLast?.any (·.interval.overlaps t.interval) ||
    after.head?.any (·.interval.overlaps t.interval)

/-- A transition that is there already changes nothing, not even the marks. -/
def addTransition (a : Automaton) (source : Nat) (interval : Interval) (target : Nat) : Automaton :=
  let t : Transition := ⟨interval, target⟩
  let list := a.transitions source
  if list.contains t then a
  else
    { a with
      states := a.states.modify source fun s =>
        { s with transitions := insertAscending Transition.order t s.transitions }
      deterministic := a.deterministic && !overlapsNeighbour t list }.forget

def markMinimal (a : Automaton) : Automaton := { a with minimal := true }

def setSingleton (a : Automaton) (text : Option String) : Automaton := { a with singleton := text }

/-! Requests from outside name states by number, and a number without a state is refused. -/

def setAccept? (a : Automaton) (q : Nat) (accept : Bool) : Option Automaton :=
  if q < a.size then some (a.setAccept q accept) else none

def setInitial? (a : Automaton) (q : Nat) : Option Automaton :=
  if q < a.size then some (a.setInitial q) else none

def addTransition? (a : Automaton) (source : Nat) (interval : Interval) (target : Nat) :
    Option Automaton :=
  if source < a.size then some (a.addTransition source interval target) else none

end Automaton

end IntervalAutomata
