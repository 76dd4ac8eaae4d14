import IntervalAutomata.Ascending
import IntervalAutomata.Text.Numeral

/-!
Symbols and closed intervals of symbols. The alphabet is the range of Unicode code points; surrogates
are symbols too, although no text contains them. An interval is a plain pair of ends: one whose ends
are inverted contains nothing, and every operation here that builds an interval from two proper ones
builds a proper one.
-/

namespace IntervalAutomata

abbrev Symbol := Nat

def minSymbol : Nat := 0
def maxSymbol : Nat := 0x10FFFF

structure Interval where
  min : Nat
  max : Nat
deriving DecidableEq, Inhabited

namespace Interval

def single (symbol : Symbol) : Interval := ⟨symbol, symbol⟩

def full : Interval := ⟨minSymbol, maxSymbol⟩

/-- The characters from `start` to `stop`, unless they are in the wrong order. -/
def ofChars? (start stop : Char) : Option Interval :=
  if start ≤ stop then some ⟨start.toNat, stop.toNat⟩ else none

def contains (i : Interval) (symbol : Nat) : Bool := i.min ≤ symbol && symbol ≤ i.max

def overlaps (i j : Interval) : Bool := i.min ≤ j.max && j.min ≤ i.max

def meet? (i j : Interval) : Option Interval :=
  let low := Nat.max i.min j.min
  let high := Nat.min i.max j.max
  if low ≤ high then some ⟨low, high⟩ else none

/-- `j` starts right after `i` ends. Nothing follows the last symbol of the alphabet. -/
def abuts (i j : Interval) : Bool := i.max < maxSymbol && i.max + 1 == j.min

/-- Two intervals in ascending order whose union is an interval. -/
def touches (i j : Interval) : Bool := i.overlaps j || i.abuts j

def isSingle (i : Interval) : Bool := i.min == i.max

/-- The number of symbols as a 32-bit number, which is zero when all `2 ^ 32` of them are in it. -/
def length (i : Interval) : Nat := (i.max - i.min + 1) % (1 <<< 32)

/-- By lower end, then by upper end. -/
def order : Interval → Interval → Ordering :=
  compareLex (compareOn (·.min)) (compareOn (·.max))

end Interval

/-- The character with this code point, unless it is a surrogate or beyond the alphabet. -/
def Symbol.char? (symbol : Symbol) : Option Char :=
  if h : symbol.isValidChar then some (Char.ofNatAux symbol h) else none

/-- Visible ASCII characters, the blank excluded. -/
def isGraphic (c : Char) : Bool := '!' ≤ c && c ≤ '~'

/-- A symbol that is a visible ASCII character stands for itself; any other is a code point. -/
def Symbol.display (symbol : Symbol) : String :=
  match symbol.char? with
  | some c => if isGraphic c then c.toString else codePoint
  | none => codePoint
where
  codePoint : String := "U+" ++ String.ofList (Numeral.upperHex 4 symbol)

def Interval.display (i : Interval) : String :=
  if i.isSingle then Symbol.display i.min
  else Symbol.display i.min ++ "-" ++ Symbol.display i.max

end IntervalAutomata
