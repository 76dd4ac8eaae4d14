/-!
Byte offsets into encoded text. An offset is a character boundary when some number of whole characters
fills exactly the bytes before it.
-/

namespace IntervalAutomata

/-- The number of bytes of an encoded text. -/
def byteLength (cs : List Char) : Nat := cs.foldr (fun c length => c.utf8Size + length) 0

/-- The part of a text from a byte offset on, if the offset is a character boundary. -/
def suffixAt? : (offset : Nat) → List Char → Option (List Char)
  | 0, cs => some cs
  | _ + 1, [] => none
  | offset + 1, c :: cs =>
    if c.utf8Size ≤ offset + 1 then suffixAt? (offset + 1 - c.utf8Size) cs else none

end IntervalAutomata
