import IntervalAutomata.Journal
import IntervalAutomata.Pattern.Display

/-!
What constructions report and how they fail. A construction is a function whose result carries the
events on the way; one that can fail carries an error in place of its value, and keeps the events
before the failure.
-/

namespace IntervalAutomata

inductive Event where
  | compiled (pattern : Pattern) (states transitions : Nat)
  | flattened (nodes states transitions : Nat) (deterministic : Bool)
  | determinized (before after : Nat)
  | minimized (before after : Nat)
  | complemented (before after : Nat)
  | intersected (left right pairs after : Nat)
  | transduced (pairs after : Nat)
  | decoded (states transitions : Nat)
  | simulating (states : Nat)
  | depthExceeded (depth limit : Nat)
  | statesExceeded (limit : Nat)
  | idsExceeded

namespace Event

def level : Event → String
  | simulating _ => "TRACE"
  | depthExceeded _ _ | statesExceeded _ | idsExceeded => "WARN"
  | _ => "DEBUG"

def message : Event → String
  | compiled pattern states transitions =>
    "compiled " ++ pattern.display ++ s!": {states} states, {transitions} transitions"
  | flattened nodes states transitions deterministic =>
    s!"epsilon elimination: {nodes} graph nodes -> {states} states, {transitions} transitions" ++
      if deterministic then " (deterministic)" else ""
  | determinized before after =>
    s!"subset construction: {before} NFA states -> {after} DFA states"
  | minimized before after => s!"minimization: {before} states -> {after} states"
  | complemented before after => s!"complement: {before} states -> {after} states"
  | intersected left right pairs after =>
    s!"intersection: {left} x {right} states -> {pairs} pairs -> {after} states"
  | transduced pairs after => s!"transducer image: {pairs} pairs -> {after} states"
  | decoded states transitions =>
    s!"decoded automaton: {states} states, {transitions} transitions"
  | simulating states => s!"simulating nondeterministic automaton ({states} states)"
  | depthExceeded depth limit =>
    s!"syntax tree depth {depth} exceeds {limit}, aborting construction"
  | statesExceeded limit => s!"state limit of {limit} exceeded, aborting construction"
  | idsExceeded => "projected size exceeds the u32 id space, aborting construction"

def line (e : Event) : String := e.level ++ " " ++ e.message

end Event

def report (e : Event) : Journal Event Unit := Journal.note e

inductive BuildError where
  | invertedBounds (min max : Nat)
  | notDeterministic
  | stateLimit (limit : Nat)
  | depthLimit (limit : Nat)
deriving DecidableEq

def BuildError.message : BuildError → String
  | invertedBounds min max => "invalid repetition bounds \x7b" ++ s!"{min},{max}" ++ "\x7d"
  | notDeterministic => "operation requires a deterministic automaton"
  | stateLimit limit => s!"state limit exceeded ({limit} states)"
  | depthLimit limit => s!"syntax tree nesting exceeds {limit} levels"

abbrev Build := ExceptT BuildError (Journal Event)

def Build.outcome {α : Type} (b : Build α) : Except BuildError α := b.run.value

def Build.events {α : Type} (b : Build α) : List Event := b.run.events

/-- For a construction that cannot fail here: its value, or a default that is never needed. -/
def Build.getD {α : Type} (b : Build α) (default : α) : Journal Event α :=
  ⟨b.outcome.toOption.getD default, b.events⟩

end IntervalAutomata
