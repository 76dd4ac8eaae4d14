/-!
Words of 32 bits as bytes, least significant first, and sections padded to whole words.
-/

namespace IntervalAutomata.Binary

def wordBytes (w : UInt32) : List UInt8 :=
  [w.toUInt8, (w >>> 8).toUInt8, (w >>> 16).toUInt8, (w >>> 24).toUInt8]

def wordOf (a b c d : UInt8) : UInt32 :=
  a.toUInt32 ||| b.toUInt32 <<< 8 ||| c.toUInt32 <<< 16 ||| d.toUInt32 <<< 24

/-- The words of a section; bytes behind the last whole word are dropped. -/
def words : List UInt8 → List UInt32
  | a :: b :: c :: d :: rest => wordOf a b c d :: words rest
  | _ => []

/-- The number as a word. Anything that is stored as a word is small enough. -/
def numberBytes (n : Nat) : List UInt8 := wordBytes (UInt32.ofNat n)

def sectionAlign : Nat := 4

def alignUp (n : Nat) : Nat := (n + (sectionAlign - 1)) / sectionAlign * sectionAlign

/-- Zero bytes up to the next whole word. -/
def pad (bytes : List UInt8) : List UInt8 :=
  bytes ++ List.replicate (alignUp bytes.length - bytes.length) 0

end IntervalAutomata.Binary
