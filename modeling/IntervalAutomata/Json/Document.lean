import IntervalAutomata.Json.Lexeme

/-!
JSON values as far as patterns need them: no booleans, no arrays, and no numbers but natural ones of 32
bits. Members keep their order, and one name may be given several times.
-/

namespace IntervalAutomata.Json

variable {α : Type}

/-- The only member of that name. -/
def only? (members : List (List Char × α)) (name : String) : Option α :=
  match members.filter fun member => member.1 == name.toList with
  | [(_, value)] => some value
  | _ => none

/-- Whether no member has that name. -/
def lacks (members : List (List Char × α)) (name : String) : Bool :=
  members.all fun member => member.1 != name.toList

inductive Document where
  | null
  | text (cs : List Char)
  | natural (n : UInt32)
  | object (members : List (List Char × Document))

namespace Document

mutual

/-- The number of objects that are open at once where they are nested most deeply. -/
def nesting : Document → Nat
  | null | text _ | natural _ => 0
  | object members => nestingAll members + 1

def nestingAll : List (List Char × Document) → Nat
  | [] => 0
  | (_, d) :: more => Nat.max d.nesting (nestingAll more)

end

mutual

/-- A document in front of `rest`, without any blanks. -/
def onto : Document → (rest : List Char) → List Char
  | null, rest => 'n' :: 'u' :: 'l' :: 'l' :: rest
  | text cs, rest => quoted cs ++ rest
  | natural n, rest => Nat.toDigits 10 n.toNat ++ rest
  | object members, rest => '\x7b' :: membersOnto true members rest

/-- Members and the closing bracket. `first` says that no member stands before these. -/
def membersOnto : (first : Bool) → List (List Char × Document) → (rest : List Char) → List Char
  | _, [], rest => '\x7d' :: rest
  | first, (name, d) :: more, rest =>
    (if first then [] else [',']) ++ quoted name ++ ':' :: d.onto (membersOnto false more rest)

end

end Document

end IntervalAutomata.Json
