import IntervalAutomata.Json.Lexeme
import Mathlib.Data.Nat.Digits.Defs

/-! # Lexemes are read back

An escaped character takes one round of reading and gives itself back, so a quoted text does, whatever
follows it. Decimal digits come without a leading zero and stay far below what a double can hold, so a
32-bit number comes back as well, as long as what follows it does not belong to a number. -/

namespace IntervalAutomata.Json

/-! ## Strings -/

theorem hexValue?_digitChar : ∀ d < 16, hexValue? (Nat.digitChar d) = some d := by decide

theorem utf8Size_digitChar : ∀ d < 16, (Nat.digitChar d).utf8Size = 1 := by decide

theorem codeUnit_digits {a b : Nat} (ha : a < 16) (hb : b < 16) (cs : List Char) :
    codeUnit ('0' :: '0' :: Nat.digitChar a :: Nat.digitChar b :: cs) = .ok (16 * a + b, cs) := by
  have hzero : hexValue? '0' = some 0 := by decide
  have hsize : ('0' : Char).utf8Size = 1 := by decide
  simp [codeUnit, byteLength, utf8Size_digitChar a ha, utf8Size_digitChar b hb, hsize, hzero,
    hexValue?_digitChar a ha, hexValue?_digitChar b hb]

/-- A control character is neither half of a surrogate pair. -/
theorem codePoint_control {c : Char} (hc : c.toNat < 0x20) (cs : List Char) :
    codePoint ('0' :: '0' :: Nat.digitChar (c.toNat / 16) :: Nat.digitChar (c.toNat % 16) :: cs) =
      .ok (c, cs) := by
  have hunit : 16 * (c.toNat / 16) + c.toNat % 16 = c.toNat := Nat.div_add_mod _ _
  have htrailing : isTrailing c.toNat = false := by simp [isTrailing]; omega
  have hleading : isLeading c.toNat = false := by simp [isLeading]; omega
  rw [codePoint, codeUnit_digits (by omega) (by omega), hunit]
  simp [bind, Except.bind, htrailing, hleading, pure, Except.pure]

/-- **Reading a character back.** However it is escaped, it takes one round. -/
theorem string_escaped (c : Char) (fuel : Nat) (cs : List Char) :
    string (fuel + 1) (escaped c ++ cs) =
      (string fuel cs).map fun found => (c :: found.1, found.2) := by
  have hround : ∀ found : Except Fault (List Char × List Char),
      (found.bind fun found => .ok (c :: found.1, found.2)) =
        found.map fun found => (c :: found.1, found.2) := fun found => by cases found <;> rfl
  rw [← hround]
  unfold escaped
  split
  iterate 7 rfl
  rename_i hquote hbackslash _ _ _ _ _
  split
  · rename_i hc
    simp only [List.cons_append, List.nil_append, string, escape, codePoint_control hc]
    rfl
  · rename_i hc
    rw [List.singleton_append, string, if_neg hc]
    · rfl
    · exact hquote
    · exact hbackslash

/-- **Reading a text back.** -/
theorem string_quoted {cs : List Char} {fuel : Nat} (h : cs.length ≤ fuel) (rest : List Char) :
    string fuel (cs.flatMap escaped ++ '"' :: rest) = .ok (cs, rest) := by
  induction cs generalizing fuel with
  | nil => rw [List.flatMap_nil, List.nil_append, string]
  | cons c cs ih =>
    obtain ⟨fuel, rfl⟩ : ∃ k, fuel = k + 1 := Nat.exists_eq_succ_of_ne_zero (by rintro rfl; cases h)
    rw [List.flatMap_cons, List.append_assoc, string_escaped, ih (Nat.le_of_succ_le_succ h)]
    rfl

theorem quoted_append (cs rest : List Char) :
    quoted cs ++ rest = '"' :: (cs.flatMap escaped ++ '"' :: rest) := by
  simp [quoted]

/-! ## Numbers -/

/-- The values of the decimal digits. -/
def decimal (n : Nat) : List Nat := (Nat.toDigits 10 n).map fun c => c.toNat - '0'.toNat

theorem valueOf_decimal (n : Nat) : valueOf (decimal n) = n := by
  rw [valueOf, decimal, List.foldl_map, ← Nat.ofDigitChars_eq_foldl]
  exact Nat.ofDigitChars_ten_toDigits

/-- Only zero starts with a zero. -/
theorem head?_decimal (n : Nat) : (decimal n).head? = some 0 ↔ n = 0 := by
  induction n using Nat.strongRecOn with
  | ind n ih =>
    rw [decimal, Nat.toDigits_eq_if (by decide)]
    split
    · rename_i hn
      simp only [List.map_cons, List.head?_cons, Option.some.injEq]
      rw [show '0'.toNat = 48 from rfl, Nat.toNat_digitChar_sub_48_of_lt_ten hn]
    · have hhead : (decimal (n / 10)).head?.isSome = true := by
        simp [decimal, Nat.toDigits_ne_nil]
      rw [List.map_append, List.head?_append, ← decimal, Option.or_of_isSome hhead,
        ih (n / 10) (by omega)]
      omega

theorem wholePart_toDigits (n : Nat) {rest : List Char}
    (hrest : ∀ c ∈ rest.head?, c.isDigit = false) :
    wholePart (Nat.toDigits 10 n ++ rest) = .ok (decimal n, rest) := by
  have hall : ∀ c ∈ Nat.toDigits 10 n, c.isDigit = true := fun c hc =>
    Nat.isDigit_of_mem_toDigits (by decide) (by decide) hc
  have hstop : rest.takeWhile Char.isDigit = [] ∧ rest.dropWhile Char.isDigit = rest := by
    cases rest with
    | nil => exact ⟨rfl, rfl⟩
    | cons c rest => simp [hrest c rfl]
  have hdigits : digits (Nat.toDigits 10 n ++ rest) = .ok (decimal n, rest) := by
    rw [digits, List.takeWhile_append_of_pos hall, List.dropWhile_append_of_pos hall, hstop.1, hstop.2]
    simp [Nat.toDigits_ne_nil, decimal]
  have hzero : ¬ ((decimal n).head? = some 0 ∧ 1 < (decimal n).length) := by
    rw [head?_decimal]
    rintro ⟨rfl, hlength⟩
    exact absurd hlength (by decide)
  rw [wholePart, hdigits]
  simp only [bind, Except.bind, Bool.and_eq_true, decide_eq_true_eq, gt_iff_lt, if_neg hzero]
  rfl

theorem le_foldl_digits (ds : List Nat) (value : Nat) :
    value ≤ ds.foldl (fun n d => 10 * n + d) value := by
  induction ds generalizing value with
  | nil => exact Nat.le_refl _
  | cons d ds ih => exact Nat.le_trans (by omega) (ih (10 * value + d))

/-- What fits into 64 bits is read to its last digit. -/
theorem leadingDigits_eq {ds : List Nat} {value : Nat}
    (h : ds.foldl (fun n d => 10 * n + d) value < 1 <<< 64) :
    leadingDigits value ds = (ds.foldl (fun n d => 10 * n + d) value, []) := by
  induction ds generalizing value with
  | nil => rfl
  | cons d ds ih =>
    have hle := le_foldl_digits ds (10 * value + d)
    rw [leadingDigits, Nat.mul_comm, if_pos (Nat.lt_of_le_of_lt hle h)]
    exact ih h

theorem exceedsDouble_whole {ds : List Nat} (h : valueOf ds < 1 <<< 53) :
    exceedsDouble ds [] 0 = false := by
  have hleading : leadingDigits 0 ds = (valueOf ds, []) :=
    leadingDigits_eq (Nat.lt_trans h (by decide))
  have hround : roundToDouble (valueOf ds) = valueOf ds := if_pos h
  have hsmall : (1 <<< 53 : Nat) ≤ (1 <<< 1024) - (1 <<< 970) := by decide +kernel
  have hproduct : ¬ valueOf ds * roundToDouble (Nat.pow 10 0) ≥ (1 <<< 1024) - (1 <<< 970) := by
    rw [show roundToDouble (Nat.pow 10 0) = 1 from rfl, Nat.mul_one]
    exact Nat.not_le.mpr (Nat.lt_of_lt_of_le h hsmall)
  rw [exceedsDouble, hleading]
  dsimp only [leadingDigits, List.length_nil, Nat.sub_self, Int.natCast_zero, Int.add_zero]
  simp only [hround]
  split
  · rfl
  · exact Bool.or_eq_false_iff.mpr ⟨by decide, decide_eq_false hproduct⟩

/-- Nothing or what stands behind a member of an object. -/
def Delimited (rest : List Char) : Prop := ∀ c ∈ rest.head?, c = ',' ∨ c = '\x7d'

/-- **Reading a number back.** -/
theorem number_toDigits {n : Nat} (hn : n < 1 <<< 53) {rest : List Char} (hrest : Delimited rest) :
    number (Nat.toDigits 10 n ++ rest) = .ok (some n, rest) := by
  have hwhole : wholePart (Nat.toDigits 10 n ++ rest) = .ok (decimal n, rest) :=
    wholePart_toDigits n fun c hc => by rcases hrest c hc with rfl | rfl <;> decide
  have hexceeds : exceedsDouble (decimal n) [] 0 = false :=
    exceedsDouble_whole (by rw [valueOf_decimal]; exact hn)
  have hfits : n < 1 <<< 64 := Nat.lt_trans hn (by decide)
  have hsign : ∀ cs, Nat.toDigits 10 n ++ rest ≠ '-' :: cs := by
    intro cs heq
    rw [heq] at hwhole
    simp [wholePart, digits, bind, Except.bind] at hwhole
  unfold number
  split
  rename_i hparts
  split at hparts
  · rename_i heq
    exact absurd heq (hsign _)
  · obtain ⟨rfl, rfl⟩ := Prod.mk.inj hparts
    simp only [hwhole, bind, Except.bind]
    rcases rest with _ | ⟨d, rest⟩
    · simpa [pure, Except.pure, hexceeds, valueOf_decimal] using hfits
    · rcases hrest d rfl with rfl | rfl <;>
        simpa [pure, Except.pure, hexceeds, valueOf_decimal] using hfits

end IntervalAutomata.Json
