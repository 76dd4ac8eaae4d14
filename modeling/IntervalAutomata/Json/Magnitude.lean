/-!
Whether a decimal number is too large for a double. The leading digits that fit into 64 bits are
rounded to a double, the power of ten is rounded to a double, and the product is too large when it
rounds beyond the largest double. A product at the halfway point rounds up to the even neighbour, which
does not exist, so that one is too large already.
-/

namespace IntervalAutomata.Json

/-- The nearest multiple of a power of two with at most 53 significant bits, ties to even. -/
def roundToDouble (n : Nat) : Nat :=
  if n < 1 <<< 53 then n
  else
    let unit := 1 <<< (n.log2 - 52)
    let quotient := n / unit
    let twice := 2 * (n % unit)
    let up := twice > unit || (twice == unit && quotient % 2 == 1)
    (if up then quotient + 1 else quotient) * unit

/-- Reads digits while the number fits into 64 bits, and leaves the others. -/
def leadingDigits (value : Nat) : List Nat → Nat × List Nat
  | [] => (value, [])
  | d :: ds =>
    if value * 10 + d < 1 <<< 64 then leadingDigits (value * 10 + d) ds else (value, d :: ds)

/-- Whether the number with these digits before and after the point and this exponent is too large. -/
def exceedsDouble (whole fraction : List Nat) (exponent : Int) : Bool :=
  let (value, lost) := leadingDigits 0 whole
  let (value, ignored) := leadingDigits value fraction
  let exponent := exponent + lost.length - (fraction.length - ignored.length : Nat)
  if value = 0 || exponent < 0 then false
  else
    exponent > 308 ||
      roundToDouble value * roundToDouble (Nat.pow 10 exponent.toNat) ≥ (1 <<< 1024) - (1 <<< 970)

end IntervalAutomata.Json
