import IntervalAutomata.Automaton.Basic

/-!
Running an automaton over a text. A deterministic automaton follows one path, finding each transition
by halving search on the upper ends: with separate intervals these ascend along with the lower ends,
so the first interval that does not end before the symbol is the only one that can cover it. Any other
automaton is simulated on the states it may be in. Marks keep a state from being entered twice for one
symbol, and all of them are clear again before the next.
-/

namespace IntervalAutomata

/--
The rest of `xs` from the first entry that fails `p`, where the entries that satisfy `p` come first.
Each round looks at the middle of the `size` entries still in question.
-/
def bisect {α : Type} (p : α → Bool) : (fuel size : Nat) → List α → List α
  | fuel + 1, size, xs =>
    if size ≤ 1 then
      match xs with
      | x :: rest => if p x then rest else xs
      | [] => []
    else
      let half := size / 2
      let upper := xs.drop half
      if upper.head?.any p then bisect p fuel (size - half) upper
      else bisect p fuel (size - half) xs
  | 0, _, xs => xs

namespace State

/-- The target of the transition that covers `symbol`. -/
def step (s : State) (symbol : Symbol) : Option Nat :=
  let n := s.transitions.length
  match bisect (fun t => t.interval.max < symbol) (n + 1) n s.transitions with
  | t :: _ => if t.interval.min ≤ symbol then some t.target else none
  | [] => none

end State

namespace Automaton

def step (a : Automaton) (q : Nat) (symbol : Symbol) : Option Nat := (a.state q).step symbol

/-- The state reached from `q`, unless some symbol has no transition. -/
def walk (a : Automaton) : Nat → List Symbol → Option Nat
  | q, [] => some q
  | q, c :: w => (a.step q c).bind fun next => a.walk next w

/-- Where the states of `active` go on `symbol`, once for each transition that covers it. -/
def moves (a : Automaton) (active : List Nat) (symbol : Symbol) : List Nat :=
  active.flatMap fun q =>
    ((a.transitions q).filter (·.interval.contains symbol)).map (·.target)

/-- The states that some state of `active` reaches on `symbol`, ascending. -/
def successors (a : Automaton) (active : List Nat) (symbol : Symbol) : List Nat :=
  ascending compare (a.moves active symbol)

end Automaton

/-- States that have been entered, the latest first, with a mark for each of them. -/
structure Front where
  states : List Nat
  marks : Array Bool

namespace Front

/-- A state that is marked is not entered again. -/
def enter (f : Front) (q : Nat) : Front :=
  if f.marks.getD q false then f else ⟨q :: f.states, f.marks.setIfInBounds q true⟩

/-- Clears the marks of the states that have been entered, so that they serve for the next symbol. -/
def unmark (f : Front) : Front :=
  { f with marks := f.states.foldl (fun marks q => marks.setIfInBounds q false) f.marks }

end Front

namespace Automaton

/-- One symbol further. -/
def advance (a : Automaton) (f : Front) (symbol : Symbol) : Front :=
  ((a.moves f.states symbol).foldl Front.enter { f with states := [] }).unmark

/-- Whether a state of the front accepts once the symbols are read. Without a state it stops early. -/
def simulate (a : Automaton) : Front → List Symbol → Bool
  | f, [] => f.states.any a.isAccepting
  | f, c :: w =>
    let next := a.advance f c
    if next.states.isEmpty then false else a.simulate next w

/-- Acceptance by the transitions alone. -/
def runSymbols (a : Automaton) (w : List Symbol) : Bool :=
  if a.deterministic then (a.walk a.initial w).any a.isAccepting
  else a.simulate ⟨[a.initial], Array.replicate a.size false⟩ w

def run (a : Automaton) (text : String) : Bool :=
  match a.singleton with
  | some s => s == text
  | none => a.runSymbols (text.toList.map Char.toNat)

/--
Whether an ascending list covers the alphabet from `next` on. Its intervals have to follow one another
without a gap, even where they go on beyond the alphabet.
-/
def coversFrom (next : Nat) : List Transition → Bool
  | [] => maxSymbol < next
  | t :: rest => t.interval.min ≤ next && coversFrom (Nat.max next (t.interval.max + 1)) rest

/-- Every state has a transition for every symbol, and no state has a gap between its intervals. -/
def isComplete (a : Automaton) : Bool :=
  a.states.toList.all fun s => coversFrom 0 s.transitions

def step? (a : Automaton) (q : Nat) (symbol : Symbol) : Option (Option Nat) :=
  if q < a.size then some (a.step q symbol) else none

end Automaton

end IntervalAutomata
