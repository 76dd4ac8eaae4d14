import IntervalAutomata.Json.Container
import IntervalAutomata.Pattern.Codec

/-!
The codec that programs use. It writes objects without blanks, the kind first. Reading takes the
members in any order and ignores unknown ones; it also takes an array of the kind and the arguments in
order.

The kind of the outermost pattern is judged as soon as it is read, before the text behind it. Inside,
values are read to their end first, and each is kept as what it can serve as: a value that cannot serve
as anything is no fault until it is asked for. So faults of the text win over faults of the pattern
everywhere but at the outermost kind.
-/

namespace IntervalAutomata

open Json

namespace Pattern

namespace Kind

/-- All kinds in order; inside a pattern a kind may also be given by its position here. -/
def all : List Kind :=
  [char, range, alternation, concatenation, star, plus, repeated, intersection, complement, anyChar,
    empty, emptyString]

/-- The names of the arguments, in order. -/
def arguments : Kind → List String
  | char => ["value"]
  | range => ["start", "end"]
  | alternation | concatenation | intersection => ["left", "right"]
  | star | plus | complement => ["node"]
  | repeated => ["node", "min", "max"]
  | anyChar | empty | emptyString => []

def ofName? (name : List Char) : Option Kind := all.find? fun k => k.name.toList == name

end Kind

/-- What a JSON value can serve as. -/
inductive Item where
  | null
  | text (cs : List Char)
  | natural (n : Nat)
  | pattern (p : Pattern)
  | other
deriving Inhabited

namespace Item

def char? : Item → Option Char
  | text [c] => some c
  | _ => none

def bound? : Item → Option Nat
  | natural n => if n ≤ maxBound then some n else none
  | _ => none

/-- A bound that may be left open. -/
def openBound? : Item → Option (Option Nat)
  | null => some none
  | item => item.bound?.map some

def pattern? : Item → Option Pattern
  | pattern p => some p
  | _ => none

def kind? : Item → Option Kind
  | text name => Kind.ofName? name
  | natural n => Kind.all[n]?
  | _ => none

end Item

abbrev Members := List (List Char × Item)

/-- The pattern of a kind with its arguments among `members`. -/
def ofMembers (kind : Kind) (members : Members) : Option Pattern :=
  let pattern (name : String) : Option Pattern := do (← only? members name).pattern?
  match kind with
  | .char => do return char (← (← only? members "value").char?)
  | .range => do
    return range (← (← only? members "start").char?) (← (← only? members "end").char?)
  | .alternation => do return alternation (← pattern "left") (← pattern "right")
  | .concatenation => do return concatenation (← pattern "left") (← pattern "right")
  | .star => do return star (← pattern "node")
  | .plus => do return plus (← pattern "node")
  | .repeated => do
    let inner ← pattern "node"
    let min ← (← only? members "min").bound?
    if lacks members "max" then return repeated inner min none
    return repeated inner min (← (← only? members "max").openBound?)
  | .intersection => do return intersection (← pattern "left") (← pattern "right")
  | .complement => do return complement (← pattern "node")
  | .anyChar => some anyChar
  | .empty => some empty
  | .emptyString => some emptyString

/-- The pattern that an object holds. -/
def ofObject (members : Members) : Option Pattern := do
  ofMembers (← (← only? members "kind").kind?) members

/-- The pattern that an array holds: its kind and then all arguments. -/
def ofArray : List Item → Option Pattern
  | [] => none
  | head :: items => do
    let kind ← head.kind?
    let names := kind.arguments.map String.toList
    if names.length = items.length then ofMembers kind (names.zip items) else none

/-- What a container can serve as: the pattern it holds, if it holds one. -/
def itemOf (p : Option Pattern) : Item :=
  match p with
  | some p => .pattern p
  | none => .other

/-- A value inside a pattern, with at most `depth` containers open within it. -/
def item (size : Nat) : (depth : Nat) → List Char → Except Fault (Item × List Char)
  | depth, cs =>
    match skipBlanks cs with
    | [] => .error .unfinished
    | '"' :: cs => do
      let (text, cs) ← string size cs
      return (.text text, cs)
    | 'n' :: cs => do
      let ((), cs) ← word ['u', 'l', 'l'] cs
      return (.null, cs)
    | 't' :: cs => do
      let ((), cs) ← word ['r', 'u', 'e'] cs
      return (.other, cs)
    | 'f' :: cs => do
      let ((), cs) ← word ['a', 'l', 's', 'e'] cs
      return (.other, cs)
    | '[' :: cs =>
      match depth with
      | 0 => .error .malformed
      | depth + 1 => do
        let (items, cs) ← elements (fun _ => item size depth) size true cs
        return (itemOf (ofArray items), cs)
    | '{' :: cs =>
      match depth with
      | 0 => .error .malformed
      | depth + 1 => do
        let (found, cs) ← members (fun _ _ => .ok ()) (fun _ => item size depth) size [] cs
        return (itemOf (ofObject found), cs)
    | c :: cs =>
      if c = '-' || c.isDigit then do
        let (value, cs) ← number (c :: cs)
        return (match value with
          | some n => .natural n
          | none => .other, cs)
      else .error .malformed

/-- The kind of the outermost pattern, which has to be a known name. -/
def outermostKind (size : Nat) (cs : List Char) : Except Fault (Item × List Char) :=
  match skipBlanks cs with
  | '[' :: _ | '{' :: _ => .error .mistyped
  | cs => do
    let (found, cs) ← item size 0 cs
    match found with
    | .text name => if (Kind.ofName? name).isSome then return (found, cs) else throw .mistyped
    | _ => throw .mistyped

/-- The kind of the outermost pattern may be given only once. -/
def allowOutermost (found : Members) (name : List Char) : Except Fault Unit :=
  if name == "kind".toList && !lacks found "kind" then .error .mistyped else .ok ()

/-- The outermost pattern. -/
def outermost (cs : List Char) : Except Fault (Pattern × List Char) :=
  let size := cs.length + 1
  let inner := item size (maxOpen - 1)
  let require (p : Option Pattern) (cs : List Char) : Except Fault (Pattern × List Char) :=
    match p with
    | some p => .ok (p, cs)
    | none => .error .mistyped
  match skipBlanks cs with
  | [] => .error .unfinished
  | '{' :: cs => do
    let value (name : List Char) := if name == "kind".toList then outermostKind size else inner
    let (found, cs) ← members allowOutermost value size [] cs
    require (ofObject found) cs
  | '[' :: cs => do
    let element (first : Bool) := if first then outermostKind size else inner
    let (items, cs) ← elements element size true cs
    require (ofArray items) cs
  | cs => do
    let _ ← item size 0 cs
    throw .mistyped

/-- The pattern that a text holds, with nothing but blanks around it. -/
def parse (text : String) : Except Fault Pattern := do
  let (p, rest) ← outermost text.toList
  if (skipBlanks rest).isEmpty then return p else throw .malformed

/-! ## Documents -/

mutual

/-- What a document can serve as. -/
def asItem : Document → Item
  | .null => .null
  | .text cs => .text cs
  | .natural n => .natural n.toNat
  | .object members => itemOf (ofObject (asMembers members))

def asMembers : List (List Char × Document) → Members
  | [] => []
  | (name, d) :: more => (name, asItem d) :: asMembers more

end

/-- An object with its kind in front. -/
def tagged (kind : Kind) (arguments : List (String × Document)) : Document :=
  .object (("kind".toList, .text kind.name.toList) :: arguments.map fun a => (a.1.toList, a.2))

def boundDocument : Option Nat → Document
  | some n => .natural (UInt32.ofNat n)
  | none => .null

def document : Pattern → Document
  | char value => tagged .char [("value", .text [value])]
  | range start stop => tagged .range [("start", .text [start]), ("end", .text [stop])]
  | alternation left right =>
    tagged .alternation [("left", left.document), ("right", right.document)]
  | concatenation left right =>
    tagged .concatenation [("left", left.document), ("right", right.document)]
  | star inner => tagged .star [("node", inner.document)]
  | plus inner => tagged .plus [("node", inner.document)]
  | repeated inner min max =>
    tagged .repeated
      [("node", inner.document), ("min", boundDocument (some min)), ("max", boundDocument max)]
  | intersection left right =>
    tagged .intersection [("left", left.document), ("right", right.document)]
  | complement inner => tagged .complement [("node", inner.document)]
  | anyChar => tagged .anyChar []
  | empty => tagged .empty []
  | emptyString => tagged .emptyString []

/-- Compact texts, and faults in the order in which they stand in a text. -/
def Codec.compact : Codec where
  serialize := document
  deserialize d := (asItem d).pattern?
  write d := some (String.ofList (d.onto []))
  read := parse

end Pattern

end IntervalAutomata
