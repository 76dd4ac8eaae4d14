import Std.Data.TreeMap

/-!
Breadth-first exploration. Items are numbered in the order in which they are first seen and expanded
in that order, so the items that have rows are always the first ones and the number of rows says which
item is next. Every number in a row was handed out before the row was written.

The bound is both the number of items allowed and the fuel: an item is expanded at most once, so an
exploration that stays within the bound cannot run out of fuel. It fails exactly when it would number
more items than the bound.
-/

namespace IntervalAutomata

/-- What there is to see at one item: whether it accepts, and its labelled edges in order. -/
structure Row (α β : Type) where
  accept : Bool
  edges : List (β × α)

/-- A row of edges without labels. -/
def Row.plain {α : Type} (targets : List α) : Row α Unit := ⟨false, targets.map ((), ·)⟩

structure Exploration (α β : Type) (cmp : α → α → Ordering) where
  items : Array α
  numbers : Std.TreeMap α Nat cmp
  /-- Row `i` is the row of item `i` with its targets numbered. -/
  rows : Array (Row Nat β)

namespace Exploration

variable {α β : Type} {cmp : α → α → Ordering}

def empty : Exploration α β cmp := ⟨#[], {}, #[]⟩

/-- Gives `x` the next number unless it has one. -/
def note (e : Exploration α β cmp) (x : α) : Exploration α β cmp :=
  if e.numbers.contains x then e
  else { e with items := e.items.push x, numbers := e.numbers.insert x e.items.size }

/-- The number of an item that has been noted. -/
def numberOf (e : Exploration α β cmp) (x : α) : Nat := e.numbers.getD x 0

/-- Notes the targets of a row from left to right and appends the row. -/
def expand (e : Exploration α β cmp) (row : Row α β) : Exploration α β cmp :=
  let seen := row.edges.foldl (fun e edge => e.note edge.2) e
  let numbered := row.edges.map fun edge => (edge.1, seen.numberOf edge.2)
  { seen with rows := seen.rows.push ⟨row.accept, numbered⟩ }

/-- The first item without a row. -/
def next? (e : Exploration α β cmp) : Option α := e.items[e.rows.size]?

def run (stop : α → Bool) (look : α → Row α β) (bound : Nat) :
    Nat → Exploration α β cmp → Option (Exploration α β cmp)
  | 0, e => some e
  | fuel + 1, e =>
    match e.next? with
    | none => some e
    | some x =>
      if stop x then some e
      else
        let grown := e.expand (look x)
        if bound < grown.items.size then none else run stop look bound fuel grown

/-- Expands items with a look that reads and changes a state of its own. -/
def runCarrying {σ : Type} (look : σ → α → Row α β × σ) :
    Nat → σ → Exploration α β cmp → Exploration α β cmp
  | 0, _, e => e
  | fuel + 1, s, e =>
    match e.next? with
    | none => e
    | some x =>
      let (row, s) := look s x
      runCarrying look fuel s (e.expand row)

end Exploration

/-- Explores from `starts` until an item satisfies `stop` or nothing is left. -/
def exploreUntil? {α β : Type} (cmp : α → α → Ordering) (bound : Nat) (stop : α → Bool)
    (look : α → Row α β) (starts : List α) : Option (Exploration α β cmp) :=
  Exploration.run stop look bound bound (starts.foldl Exploration.note Exploration.empty)

/-- Explores everything, unless that takes more than `bound` items. -/
def explore? {α β : Type} (cmp : α → α → Ordering) (bound : Nat)
    (look : α → Row α β) (starts : List α) : Option (Exploration α β cmp) :=
  exploreUntil? cmp bound (fun _ => false) look starts

/-- Explores everything within a bound that is known to suffice. -/
def exploreAll {α β : Type} (cmp : α → α → Ordering) (bound : Nat)
    (look : α → Row α β) (starts : List α) : Exploration α β cmp :=
  (explore? cmp bound look starts).getD .empty

/-- Explores everything within a bound that is known to suffice, from `start` and with `s` to begin with. -/
def exploreCarrying {α β σ : Type} (cmp : α → α → Ordering) (look : σ → α → Row α β × σ) (bound : Nat)
    (s : σ) (start : α) : Exploration α β cmp :=
  Exploration.runCarrying look bound s (Exploration.empty.note start)

end IntervalAutomata
