import IntervalAutomata.Json.Magnitude
import IntervalAutomata.Text.Offset

/-!
The smallest parts of JSON text: blanks, words, numbers and strings. A reader takes what it reads off
the front of the text and returns the rest. The first fault from the left decides how reading fails.
-/

namespace IntervalAutomata.Json

inductive Fault where
  /-- The text ends too early. -/
  | unfinished
  /-- The text is not JSON. -/
  | malformed
  /-- The text is JSON but not what is asked for. -/
  | mistyped
deriving DecidableEq

def isBlank (c : Char) : Bool := c == ' ' || c == '\n' || c == '\t' || c == '\r'

def skipBlanks (cs : List Char) : List Char := cs.dropWhile isBlank

/-- Exactly the characters of `word`. -/
def word : (word : List Char) → List Char → Except Fault (Unit × List Char)
  | [], cs => .ok ((), cs)
  | _ :: _, [] => .error .unfinished
  | w :: ws, c :: cs => if c = w then word ws cs else .error .malformed

/-! ## Numbers -/

/-- One digit or more. -/
def digits (cs : List Char) : Except Fault (List Nat × List Char) :=
  let found := cs.takeWhile Char.isDigit
  if found.isEmpty then .error (if cs.isEmpty then .unfinished else .malformed)
  else .ok (found.map fun c => c.toNat - '0'.toNat, cs.dropWhile Char.isDigit)

/-- Digits without a leading zero, apart from zero itself. -/
def wholePart (cs : List Char) : Except Fault (List Nat × List Char) := do
  let (found, rest) ← digits cs
  if found.head? = some 0 && found.length > 1 then throw .malformed
  return (found, rest)

def valueOf (digits : List Nat) : Nat := digits.foldl (fun n d => 10 * n + d) 0

def exponentPart (cs : List Char) : Except Fault (Int × List Char) :=
  match cs with
  | '-' :: cs => do
    let (found, rest) ← digits cs
    return (-valueOf found, rest)
  | '+' :: cs => do
    let (found, rest) ← digits cs
    return (valueOf found, rest)
  | cs => do
    let (found, rest) ← digits cs
    return (valueOf found, rest)

/--
A number, of which only a natural one below `2 ^ 64` keeps its value. A sign, a fraction or an exponent
makes it another number, whatever its value.
-/
def number (cs : List Char) : Except Fault (Option Nat × List Char) := do
  let (negative, cs) := match cs with
    | '-' :: rest => (true, rest)
    | _ => (false, cs)
  let (whole, cs) ← wholePart cs
  let (fraction, cs) ← match cs with
    | '.' :: rest => do
      let (found, rest) ← digits rest
      pure (some found, rest)
    | _ => pure (none, cs)
  let (exponent, cs) ← match cs with
    | 'e' :: rest | 'E' :: rest => do
      let (found, rest) ← exponentPart rest
      pure (some found, rest)
    | _ => pure (none, cs)
  if exceedsDouble whole (fraction.getD []) (exponent.getD 0) then throw .malformed
  let natural := !negative && fraction.isNone && exponent.isNone && valueOf whole < 1 <<< 64
  return (if natural then some (valueOf whole) else none, cs)

/-! ## Strings -/

def hexValue? (c : Char) : Option Nat :=
  if '0' ≤ c && c ≤ '9' then some (c.toNat - '0'.toNat)
  else if 'a' ≤ c && c ≤ 'f' then some (c.toNat - 'a'.toNat + 10)
  else if 'A' ≤ c && c ≤ 'F' then some (c.toNat - 'A'.toNat + 10)
  else none

/-- Four hexadecimal digits. They are looked at only when four bytes are there. -/
def codeUnit (cs : List Char) : Except Fault (Nat × List Char) :=
  if byteLength (cs.take 4) < 4 then .error .unfinished
  else
    match (cs.take 4).mapM hexValue? with
    | some values => .ok (values.foldl (fun n d => 16 * n + d) 0, cs.drop 4)
    | none => .error .malformed

def isLeading (unit : Nat) : Bool := 0xD800 ≤ unit && unit ≤ 0xDBFF

def isTrailing (unit : Nat) : Bool := 0xDC00 ≤ unit && unit ≤ 0xDFFF

/-- A code unit, or a leading and a trailing one that make up a character together. -/
def codePoint (cs : List Char) : Except Fault (Char × List Char) := do
  let (unit, cs) ← codeUnit cs
  if isTrailing unit then throw .malformed
  if !isLeading unit then return (Char.ofNat unit, cs)
  match cs with
  | '\\' :: 'u' :: cs => do
    let (low, cs) ← codeUnit cs
    if !isTrailing low then throw .malformed
    return (Char.ofNat (0x10000 + (unit - 0xD800) * 0x400 + (low - 0xDC00)), cs)
  | [] | ['\\'] => throw .unfinished
  | _ => throw .malformed

/-- What follows a backslash. -/
def escape : List Char → Except Fault (Char × List Char)
  | '"' :: cs => .ok ('"', cs)
  | '\\' :: cs => .ok ('\\', cs)
  | '/' :: cs => .ok ('/', cs)
  | 'b' :: cs => .ok ('\x08', cs)
  | 'f' :: cs => .ok ('\x0C', cs)
  | 'n' :: cs => .ok ('\n', cs)
  | 'r' :: cs => .ok ('\r', cs)
  | 't' :: cs => .ok ('\t', cs)
  | 'u' :: cs => codePoint cs
  | [] => .error .unfinished
  | _ => .error .malformed

/-- A string after its opening quote. Every round takes at least one character. -/
def string : (fuel : Nat) → List Char → Except Fault (List Char × List Char)
  | _, [] => .error .unfinished
  | _, '"' :: cs => .ok ([], cs)
  | fuel + 1, '\\' :: cs => do
    let (c, cs) ← escape cs
    let (found, cs) ← string fuel cs
    return (c :: found, cs)
  | fuel + 1, c :: cs => do
    if c.toNat < 0x20 then throw .malformed
    let (found, cs) ← string fuel cs
    return (c :: found, cs)
  | 0, _ => .error .unfinished

/-- A character within a string. -/
def escaped (c : Char) : List Char :=
  match c with
  | '"' => ['\\', '"']
  | '\\' => ['\\', '\\']
  | '\x08' => ['\\', 'b']
  | '\x0C' => ['\\', 'f']
  | '\n' => ['\\', 'n']
  | '\r' => ['\\', 'r']
  | '\t' => ['\\', 't']
  | _ =>
    if c.toNat < 0x20 then
      ['\\', 'u', '0', '0', Nat.digitChar (c.toNat / 16), Nat.digitChar (c.toNat % 16)]
    else [c]

/-- A string in quotes. -/
def quoted (cs : List Char) : List Char := '"' :: cs.flatMap escaped ++ ['"']

end IntervalAutomata.Json
