/-!
Hexadecimal numerals. Digits come out most significant first and a width only ever adds zeros, so the
value of a numeral never depends on it.
-/

namespace IntervalAutomata.Numeral

/-- Lower-case hexadecimal digits, at least one. -/
def hex (n : Nat) : List Char := Nat.toDigits 16 n

/-- Pads on the left up to `width`; longer texts are left alone. -/
def padLeft (width : Nat) (fill : Char) (digits : List Char) : List Char :=
  List.replicate (width - digits.length) fill ++ digits

def upperHex (width n : Nat) : List Char := padLeft width '0' ((hex n).map Char.toUpper)

end IntervalAutomata.Numeral
