import IntervalAutomata.Interval

/-!
Transducers: automata whose transitions also emit. Each state lists its transitions in ascending
order, by interval, then by output, then by target, without repetition.
-/

namespace IntervalAutomata

/-- What a transition emits for the symbol it consumes. -/
inductive Output where
  /-- The consumed symbol itself. -/
  | identity
  /-- Nothing. -/
  | epsilon
  /-- Any one symbol of an interval. -/
  | interval (i : Interval)
deriving DecidableEq, Inhabited

namespace Output

def rank : Output → Nat
  | identity => 0
  | epsilon => 1
  | interval _ => 2

/-- The emitted interval; anything will do for an output without one. -/
def span : Output → Interval
  | interval i => i
  | _ => ⟨0, 0⟩

/-- The identity, then nothing, then intervals. -/
def order : Output → Output → Ordering :=
  compareLex (compareOn rank) (fun x y => Interval.order x.span y.span)

end Output

structure Emission where
  interval : Interval
  output : Output
  target : Nat
deriving DecidableEq, Inhabited

/-- By interval, then by output, then by target. -/
def Emission.order : Emission → Emission → Ordering :=
  compareLex (fun x y => Interval.order x.interval y.interval)
    (compareLex (fun x y => Output.order x.output y.output) (compareOn (·.target)))

structure TransducerState where
  accept : Bool := false
  transitions : List Emission := []
deriving DecidableEq, Inhabited

structure Transducer where
  states : Array TransducerState
  initial : Nat
deriving DecidableEq

namespace Transducer

/-- One initial state that accepts nothing. -/
def new : Transducer := ⟨#[{}], 0⟩

def size (t : Transducer) : Nat := t.states.size

def state (t : Transducer) (q : Nat) : TransducerState := t.states.getD q {}

def isAccepting (t : Transducer) (q : Nat) : Bool := (t.state q).accept

def transitions (t : Transducer) (q : Nat) : List Emission := (t.state q).transitions

/-- Appends a state; its number is the old size. -/
def addState (t : Transducer) (accept : Bool) : Transducer :=
  { t with states := t.states.push { accept := accept } }

def setAccept (t : Transducer) (q : Nat) (accept : Bool) : Transducer :=
  { t with states := t.states.modify q fun s => { s with accept := accept } }

def addTransition (t : Transducer) (source : Nat) (interval : Interval) (output : Output)
    (target : Nat) : Transducer :=
  { t with
    states := t.states.modify source fun s =>
      { s with transitions := insertAscending Emission.order ⟨interval, output, target⟩ s.transitions } }

/-- The alphabet without one symbol. -/
def allBut (symbol : Symbol) : List Interval :=
  (if symbol > minSymbol then [⟨minSymbol, symbol - 1⟩] else []) ++
    (if symbol < maxSymbol then [⟨symbol + 1, maxSymbol⟩] else [])

/-- On every symbol but one. -/
def addExclusion (t : Transducer) (source : Nat) (excluded : Char) (output : Output)
    (target : Nat) : Transducer :=
  (allBut excluded.toNat).foldl (fun t i => t.addTransition source i output target) t

/-- On every symbol. -/
def addAll (t : Transducer) (source : Nat) (output : Output) (target : Nat) : Transducer :=
  t.addTransition source .full output target

/-! Requests from outside name states by number, and a number without a state is refused. -/

def setAccept? (t : Transducer) (q : Nat) (accept : Bool) : Option Transducer :=
  if q < t.size then some (t.setAccept q accept) else none

def addTransition? (t : Transducer) (source : Nat) (interval : Interval) (output : Output)
    (target : Nat) : Option Transducer :=
  if source < t.size then some (t.addTransition source interval output target) else none

def addExclusion? (t : Transducer) (source : Nat) (excluded : Char) (output : Output)
    (target : Nat) : Option Transducer :=
  if source < t.size then some (t.addExclusion source excluded output target) else none

def addAll? (t : Transducer) (source : Nat) (output : Output) (target : Nat) :
    Option Transducer :=
  if source < t.size then some (t.addAll source output target) else none

end Transducer

end IntervalAutomata
