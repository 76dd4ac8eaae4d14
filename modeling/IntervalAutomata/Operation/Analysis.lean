import IntervalAutomata.CycleSearch
import IntervalAutomata.Minimize
import IntervalAutomata.Operation.Product

/-!
Questions about languages. All are answered on symbol sequences, in which surrogates count like other
symbols; only the shortest example is a text and leaves them out.

Inclusion explores pairs of states, where a missing state on the right stands for the sink that
rejects everything, and stops at the first pair that accepts on the left alone. An automaton that has
been trimmed has an infinite language when its transitions lead around in a cycle: every state is on an
accepted path, and where a path meets a cycle it can go around any number of times.
-/

namespace IntervalAutomata.Automaton

/-- No symbol sequence is accepted. -/
def isEmpty (a : Automaton) : Bool := !a.isLive a.initial

/-- The empty sequence is accepted and nothing else. -/
def isEmptyString (a : Automaton) : Bool :=
  match a.singleton with
  | some s => s.isEmpty
  | none =>
    let t := a.trim
    t.size == 1 && t.isAccepting t.initial && t.transitionCount == 0

/-- Every sequence is accepted. -/
def isTotal (a : Automaton) : Journal Event Bool := do
  let m ← a.minimize
  return m.size == 1 && m.isAccepting m.initial &&
    m.transitions m.initial == [⟨.full, m.initial⟩]

/-- Whether the transitions lead around in a cycle, starting from the initial state. -/
def isCyclic? (a : Automaton) : Option Bool :=
  meetsCycle? a.targets (a.size + a.transitionCount) [(a.initial, a.targets a.initial)]
    ((Array.replicate a.size .fresh).setIfInBounds a.initial .active)

/-- Finitely many sequences are accepted. -/
def isFinite (a : Automaton) : Bool :=
  match a.trim.isCyclic? with
  | some cyclic => !cyclic
  | none => false

/-- By left number, then by right number, where a missing one comes first. -/
def simulationOrder : Nat × Option Nat → Nat × Option Nat → Ordering :=
  compareLex (compareOn Prod.fst) (compareOn Prod.snd)

/-- Where the pair goes on each segment on which the left state moves. -/
def simulationRow (a b : Automaton) (q : Nat × Option Nat) : Row (Nat × Option Nat) Unit :=
  let right := (q.2.map b.transitions).getD []
  let cuts := segments (boundaries ((a.transitions q.1 ++ right).map (·.interval)))
  .plain (cuts.filterMap fun cut =>
    (a.step q.1 cut.min).map fun p => (p, q.2.bind fun r => b.step r cut.min))

/-- The left state accepts and the right one does not. -/
def isViolation (a b : Automaton) (q : Nat × Option Nat) : Bool :=
  a.isAccepting q.1 && !q.2.any b.isAccepting

/-- Whether `a` accepts only what `b` accepts, for deterministic automata. -/
def isSimulated (a b : Automaton) : Bool :=
  match exploreUntil? simulationOrder (a.size * (b.size + 1)) (isViolation a b)
      (simulationRow a b) [(a.initial, some b.initial)] with
  | some e => e.next?.isNone
  | none => true

/-- Every sequence that `a` accepts is accepted by `b`. -/
def isSubsetOf (a b : Automaton) : Journal Event Bool := do
  let p ← a.determinize
  let q ← b.determinize
  return isSimulated p q

/-- Both accept the same sequences. -/
def sameLanguage (a b : Automaton) : Journal Event Bool := do
  if ← isSubsetOf a b then isSubsetOf b a else return false

/--
The lower end of an interval, if that is a character; otherwise the first character behind the
surrogates, if the interval goes on beyond them. In the alphabet this is the smallest character.
-/
def firstChar? (i : Interval) : Option Char :=
  (Symbol.char? i.min).or (if i.max > 0xDFFF then Symbol.char? 0xE000 else none)

def charRow (a : Automaton) (q : Nat) : Row Nat Char :=
  ⟨a.isAccepting q, (a.transitions q).filterMap fun t => (firstChar? t.interval).map (·, t.target)⟩

/-- A target that is new has the next number. Its word goes on from that of item `i`. -/
def discover (i : Nat) (words : Array (List Char)) (edge : Char × Nat) : Array (List Char) :=
  if edge.2 = words.size then words.push (edge.1 :: words.getD i []) else words

/-- For each numbered item the word, last character first, that spells the way on which it was found. -/
def discoveryWords (rows : List (Row Nat Char)) : Array (List Char) :=
  rows.zipIdx.foldl (fun words (row, i) => row.edges.foldl (discover i) words) #[[]]

/-- The first of the shortest accepted texts, smaller characters first. -/
def shortestExample (a : Automaton) : Option String :=
  match a.singleton with
  | some s => some s
  | none => do
    let e ← exploreUntil? compare a.size a.isAccepting a.charRow [a.initial]
    let _ ← e.next?
    let word := (discoveryWords e.rows.toList).getD e.rows.size []
    return String.ofList word.reverse

end IntervalAutomata.Automaton
