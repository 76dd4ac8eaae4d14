import IntervalAutomata.Json.Document
import IntervalAutomata.Pattern.Basic

/-!
Patterns as JSON. A pattern is an object: the member `kind` names its constructor, and the other members
are its arguments under their names. What turns patterns into such objects and back follows from the
constructors alone, and what turns objects into text and back knows nothing about patterns, so both are
taken from outside, as a codec, together with what is known about them.
-/

namespace IntervalAutomata

open Json

namespace Pattern

/-- Objects that may be open at once in a text that is read. -/
def maxOpen : Nat := 127

/-- Repetition bounds are 32-bit numbers. -/
def maxBound : Nat := 0xFFFFFFFF

/-! ## Constructors and their arguments -/

inductive Kind where
  | char
  | range
  | alternation
  | concatenation
  | star
  | plus
  | repeated
  | intersection
  | complement
  | anyChar
  | empty
  | emptyString
deriving DecidableEq

namespace Kind

def name : Kind → String
  | char => "char"
  | range => "range"
  | alternation => "alternation"
  | concatenation => "concatenation"
  | star => "star"
  | plus => "plus"
  | repeated => "repeat"
  | intersection => "intersection"
  | complement => "complement"
  | anyChar => "any_char"
  | empty => "empty"
  | emptyString => "empty_string"

end Kind

def kind : Pattern → Kind
  | char _ => .char
  | range _ _ => .range
  | alternation _ _ => .alternation
  | concatenation _ _ => .concatenation
  | star _ => .star
  | plus _ => .plus
  | repeated _ _ _ => .repeated
  | intersection _ _ => .intersection
  | complement _ => .complement
  | anyChar => .anyChar
  | empty => .empty
  | emptyString => .emptyString

/-- An argument of a constructor. An upper bound may be missing. -/
inductive Argument where
  | character (value : Char)
  | inner (p : Pattern)
  | bound (value : Option Nat)

/-- The arguments in order, under their names. -/
def arguments : Pattern → List (String × Argument)
  | char value => [("value", .character value)]
  | range start stop => [("start", .character start), ("end", .character stop)]
  | alternation left right | concatenation left right | intersection left right =>
    [("left", .inner left), ("right", .inner right)]
  | star inner | plus inner | complement inner => [("node", .inner inner)]
  | repeated inner min max =>
    [("node", .inner inner), ("min", .bound (some min)), ("max", .bound max)]
  | anyChar | empty | emptyString => []

/-- All bounds are 32-bit numbers. -/
def BoundsFit : Pattern → Prop
  | alternation left right | concatenation left right | intersection left right =>
    left.BoundsFit ∧ right.BoundsFit
  | star inner | plus inner | complement inner => inner.BoundsFit
  | repeated inner min max => inner.BoundsFit ∧ min ≤ maxBound ∧ ∀ n ∈ max, n ≤ maxBound
  | char _ | range _ _ | anyChar | empty | emptyString => True

namespace Argument

/-- The value of the member for an argument, where `serialize` takes care of the patterns inside. -/
def serialized (serialize : Pattern → Document) : Argument → Document
  | character value => .text [value]
  | inner p => serialize p
  | bound (some n) => .natural (UInt32.ofNat n)
  | bound none => .null

/-- The values that an argument is read from, where `deserialize` takes care of the patterns inside. -/
def IsIn (deserialize : Document → Option Pattern) (d : Document) : Argument → Prop
  | character value => d = .text [value]
  | inner p => deserialize d = some p
  | bound (some n) => ∃ word : UInt32, d = .natural word ∧ word.toNat = n
  | bound none => d = .null

end Argument

/-- Each argument is in the only member of its name. -/
def ArgumentsIn (deserialize : Document → Option Pattern) (members : List (List Char × Document))
    (p : Pattern) : Prop :=
  ∀ a ∈ p.arguments, ∃ d, only? members a.1 = some d ∧ a.2.IsIn deserialize d

/-! ## Codecs -/

/-- How patterns become documents and documents become texts, and back. -/
structure Codec where
  serialize : Pattern → Document
  /-- The pattern that a document holds, if it holds one. -/
  deserialize : Document → Option Pattern
  /-- The text of a document, if it can be written. -/
  write : Document → Option String
  /-- Reads a text and the pattern that it holds. -/
  read : String → Except Fault Pattern

/-- The members of an object for a pattern, the kind in front. -/
def Codec.layout (c : Codec) (p : Pattern) : List (List Char × Document) :=
  ("kind".toList, .text p.kind.name.toList) ::
    p.arguments.map fun a => (a.1.toList, a.2.serialized c.serialize)

/--
What a codec is relied on for. The first two laws are about one object at a time: how a constructor with
its arguments is laid out, and that an object with such members, in whatever order and beside whatever
others, is taken for that constructor. The other three are about texts, whatever documents they hold:
any document can be written, and what was written is read as what it holds, unless more objects are
nested in it than may be open at once.
-/
structure Codec.Lawful (c : Codec) : Prop where
  serialize_eq : ∀ p : Pattern, c.serialize p = .object (c.layout p)
  deserialize_eq : ∀ (p : Pattern) (members : List (List Char × Document)),
    only? members "kind" = some (.text p.kind.name.toList) → p.ArgumentsIn c.deserialize members →
    c.deserialize (.object members) = some p
  write_total : ∀ d, ∃ text, c.write d = some text
  /-- The kind of the outermost object has to be given by its name. -/
  read_written : ∀ (members : List (List Char × Document)) (name : List Char) (p : Pattern)
    (text : String), only? members "kind" = some (.text name) →
    c.deserialize (.object members) = some p → c.write (.object members) = some text →
    (Document.object members).nesting ≤ maxOpen → c.read text = .ok p
  refuses_deep : ∀ (members : List (List Char × Document)) (name : List Char) (p : Pattern)
    (text : String), only? members "kind" = some (.text name) →
    c.deserialize (.object members) = some p → c.write (.object members) = some text →
    maxOpen < (Document.object members).nesting → ∃ fault, c.read text = .error fault

/-- The JSON text of a pattern. A program panics where there is none. -/
def toJson (c : Codec) (p : Pattern) : Option String := c.write (c.serialize p)

/-- The pattern that a JSON text holds. -/
def ofJson (c : Codec) (text : String) : Except Fault Pattern := c.read text

end Pattern

end IntervalAutomata
