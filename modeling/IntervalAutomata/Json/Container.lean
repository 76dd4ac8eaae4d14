import IntervalAutomata.Json.Lexeme

/-!
Arrays and objects, after their opening bracket. How an element or a member is read is a parameter, so
that the outermost container can be more particular than the ones inside it. Commas separate and never
end a list.
-/

namespace IntervalAutomata.Json

variable {α : Type}

/-- What a container decides before its next entry. -/
inductive Turn where
  | close (rest : List Char)
  | entry (rest : List Char)

/-- Whether a container goes on. `first` says that no entry has been read yet. -/
def turn (closing : Char) (first : Bool) (cs : List Char) : Except Fault Turn :=
  match skipBlanks cs with
  | [] => .error .unfinished
  | c :: cs =>
    if c = closing then .ok (.close cs)
    else if first then .ok (.entry (c :: cs))
    else if c = ',' then
      match skipBlanks cs with
      | [] => .error .unfinished
      | c :: cs => if c = closing then .error .malformed else .ok (.entry (c :: cs))
    else .error .malformed

/-- The elements of an array. `element` is told whether it reads the first one. -/
def elements (element : Bool → List Char → Except Fault (α × List Char)) :
    (fuel : Nat) → (first : Bool) → List Char → Except Fault (List α × List Char)
  | 0, _, _ => .error .unfinished
  | fuel + 1, first, cs => do
    match ← turn ']' first cs with
    | .close rest => return ([], rest)
    | .entry cs =>
      let (x, cs) ← element first cs
      let (xs, cs) ← elements element fuel false cs
      return (x :: xs, cs)

/-- A name and the colon behind it. `allow` may refuse the name before the colon is looked for. -/
def memberName (allow : List Char → Except Fault Unit) (fuel : Nat) :
    List Char → Except Fault (List Char × List Char)
  | '"' :: cs => do
    let (name, cs) ← string fuel cs
    allow name
    match skipBlanks cs with
    | ':' :: cs => return (name, cs)
    | [] => throw .unfinished
    | _ => throw .malformed
  | _ => .error .malformed

/--
The members of an object, behind those already read. `allow` judges each name by the members before
it, and `value` reads the value for a name.
-/
def members (allow : List (List Char × α) → List Char → Except Fault Unit)
    (value : List Char → List Char → Except Fault (α × List Char)) :
    (fuel : Nat) → (found : List (List Char × α)) → List Char →
      Except Fault (List (List Char × α) × List Char)
  | 0, _, _ => .error .unfinished
  | fuel + 1, found, cs => do
    match ← turn '}' found.isEmpty cs with
    | .close rest => return (found, rest)
    | .entry cs =>
      let (name, cs) ← memberName (allow found) (fuel + 1) cs
      let (x, cs) ← value name cs
      members allow value fuel (found ++ [(name, x)]) cs

end IntervalAutomata.Json
