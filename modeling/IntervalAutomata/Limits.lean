import IntervalAutomata.Exploration
import IntervalAutomata.Report

/-!
Ceilings on what a construction may build. They abort and never change a result. States and graph
nodes are numbered with 32 bits, which is a ceiling of its own.
-/

namespace IntervalAutomata

def defaultMaxDepth : Nat := 1024

/-- How many numbers there are for states and nodes. -/
def idSpace : Nat := 0xFFFFFFFF

structure Limits where
  /-- Unlimited when missing. -/
  maxStates : Option Nat := none
  maxDepth : Nat := defaultMaxDepth
deriving DecidableEq

def exceedsIds {α : Type} : Build α := do
  report .idsExceeded
  throw (.stateLimit idSpace)

def checkIds (count : Nat) : Build Unit :=
  if count ≤ idSpace then pure () else exceedsIds

namespace Limits

def exceedsStates {α : Type} (limit : Nat) : Build α := do
  report (.statesExceeded limit)
  throw (.stateLimit limit)

def checkStates (limits : Limits) (count : Nat) : Build Unit :=
  match limits.maxStates with
  | some limit => if count > limit then exceedsStates limit else pure ()
  | none => pure ()

/-- Before building something that is projected to need `count` states. -/
def checkProjected (limits : Limits) (count : Nat) : Build Unit := do
  checkIds count
  limits.checkStates count

def checkDepth (limits : Limits) (depth : Nat) : Build Unit :=
  if depth > limits.maxDepth then do
    report (.depthExceeded depth limits.maxDepth)
    throw (.depthLimit limits.maxDepth)
  else pure ()

section

variable {α β : Type} {cmp : α → α → Ordering}

/-- Numbers an item, and counts the items if it had no number before. -/
def noteCounted (limits : Limits) (e : Exploration α β cmp) (x : α) : Build (Exploration α β cmp) :=
  if e.numbers.contains x then pure e
  else do
    limits.checkStates (e.note x).items.size
    return e.note x

/-- Numbers the targets of a row from left to right and appends the row. -/
def expandCounted (limits : Limits) (e : Exploration α β cmp) (row : Row α β) :
    Build (Exploration α β cmp) := do
  let seen ← row.edges.foldlM (fun e edge => limits.noteCounted e edge.2) e
  let numbered := row.edges.map fun edge => (edge.1, seen.numberOf edge.2)
  return { seen with rows := seen.rows.push ⟨row.accept, numbered⟩ }

def runCounted (limits : Limits) (look : α → Row α β) :
    (fuel : Nat) → Exploration α β cmp → Build (Exploration α β cmp)
  | 0, e => pure e
  | fuel + 1, e =>
    match e.next? with
    | none => pure e
    | some x => do
      let grown ← limits.expandCounted e (look x)
      runCounted limits look fuel grown

end

/--
Explores everything, with `all` a bound that suffices when there is no ceiling. Every item is counted as
it is found, save the first one, so a ceiling of none still lets that one through.
-/
def explore {α β : Type} (limits : Limits) (cmp : α → α → Ordering) (all : Nat)
    (look : α → Row α β) (start : α) : Build (Exploration α β cmp) :=
  limits.runCounted look all (Exploration.empty.note start)

end Limits

end IntervalAutomata
