import IntervalAutomata.Pattern.Display
import Mathlib.Data.List.Basic

/-! # Texts that show where they end

A numeral ends at the first character that is no digit, a comma or a brace here. An escaped character
ends behind a backslash and one more, and what is written by code behind a closing brace. So characters
and bounds can be read off the front of a text, whatever follows them. -/

namespace IntervalAutomata

/-- A text of `f` shows what it is a text of and where it ends, whatever follows it. -/
def SelfDelimiting {α : Type} (f : α → List Char) : Prop :=
  ∀ ⦃a b : α⦄ ⦃s t : List Char⦄, f a ++ s = f b ++ t → a = b ∧ s = t

section

variable {α : Type} {f : α → List Char} {c : Char} {xs ys s t : List Char}

theorem append_cons_cancel (hx : c ∉ xs) (hy : c ∉ ys) (h : xs ++ c :: s = ys ++ c :: t) :
    xs = ys ∧ s = t := by
  induction xs generalizing ys with
  | nil =>
    cases ys with
    | nil => exact ⟨rfl, (List.cons.inj h).2⟩
    | cons d ys => exact absurd (List.cons.inj h).1 (List.ne_of_not_mem_cons hy)
  | cons d xs ih =>
    cases ys with
    | nil => exact absurd (List.cons.inj h).1.symm (List.ne_of_not_mem_cons hx)
    | cons e ys =>
      obtain ⟨rfl, htail⟩ := List.cons.inj h
      obtain ⟨rfl, rfl⟩ :=
        ih (List.not_mem_of_not_mem_cons hx) (List.not_mem_of_not_mem_cons hy) htail
      exact ⟨rfl, rfl⟩

/-- A character that stands in no text of `f` can end them all. -/
theorem selfDelimiting_terminated (hf : Function.Injective f) (hc : ∀ a, c ∉ f a) :
    SelfDelimiting fun a => f a ++ [c] := by
  intro a b s t h
  rw [List.append_assoc, List.append_assoc] at h
  obtain ⟨hab, hst⟩ := append_cons_cancel (hc a) (hc b) h
  exact ⟨hf hab, hst⟩

end

/-! ## Numerals -/

namespace Numeral

variable {b m n : Nat} {c : Char}

theorem digitChar_inj : ∀ d < 16, ∀ e < 16, Nat.digitChar d = Nat.digitChar e → d = e := by decide

theorem exists_digitChar (hb : 1 < b) (hc : c ∈ Nat.toDigits b n) :
    ∃ d < b, c = Nat.digitChar d := by
  induction n using Nat.strongRecOn with
  | ind n ih =>
    rw [Nat.toDigits_eq_if hb] at hc
    split at hc
    · exact ⟨n, ‹_›, List.mem_singleton.mp hc⟩
    · obtain hc | hc := List.mem_append.mp hc
      · exact ih (n / b) (Nat.div_lt_self (by omega) hb) hc
      · exact ⟨n % b, Nat.mod_lt n (by omega), List.mem_singleton.mp hc⟩

theorem toDigits_inj (hb : 1 < b) (hle : b ≤ 16) (h : Nat.toDigits b m = Nat.toDigits b n) :
    m = n := by
  induction m using Nat.strongRecOn generalizing n with
  | ind m ih =>
    rw [Nat.toDigits_eq_if (n := m) hb, Nat.toDigits_eq_if (n := n) hb] at h
    split at h <;> split at h
    · exact digitChar_inj m (by omega) n (by omega) (List.singleton_inj.mp h)
    · simp [List.singleton_eq_append_iff, Nat.toDigits_ne_nil] at h
    · simp [List.append_eq_singleton_iff, Nat.toDigits_ne_nil] at h
    · obtain ⟨hquotients, hdigits⟩ := List.append_inj' h rfl
      have hdiv := ih (m / b) (Nat.div_lt_self (by omega) hb) hquotients
      have hlt : ∀ k, k % b < 16 := fun k =>
        Nat.lt_of_lt_of_le (Nat.mod_lt k (Nat.lt_of_succ_lt hb)) hle
      have hmod := digitChar_inj _ (hlt m) _ (hlt n) (List.singleton_inj.mp hdigits)
      rw [← Nat.div_add_mod m b, ← Nat.div_add_mod n b, hdiv, hmod]

theorem notMem_toDigits (hb : 1 < b) (hle : b ≤ 16) (hc : ∀ d < 16, c ≠ Nat.digitChar d) :
    c ∉ Nat.toDigits b n := by
  intro hmem
  obtain ⟨d, hd, rfl⟩ := exists_digitChar hb hmem
  exact hc d (Nat.lt_of_lt_of_le hd hle) rfl

/-- A numeral ends at a character that is no digit. -/
theorem selfDelimiting_toDigits (hb : 1 < b) (hle : b ≤ 16) (hc : ∀ d < 16, c ≠ Nat.digitChar d) :
    SelfDelimiting fun n => Nat.toDigits b n ++ [c] :=
  selfDelimiting_terminated (fun _ _ => toDigits_inj hb hle) fun _ => notMem_toDigits hb hle hc

end Numeral

namespace Pattern

variable {c d : Char} {s t : List Char}

/-! ## Characters -/

/-- A character is escaped, plain or written by code. -/
theorem displayChar_cases (c : Char) :
    c ∈ reserved ∧ displayChar c = ['\\', c] ∨ c ∉ reserved ∧ displayChar c = [c] ∨
      displayChar c = '\\' :: 'u' :: '\x7b' :: (Numeral.hex c.toNat ++ ['\x7d']) := by
  unfold displayChar
  split
  · rename_i hc
    exact .inl ⟨List.contains_iff_mem.mp hc, rfl⟩
  · rename_i hc
    split
    · exact .inr (.inl ⟨fun h => hc (List.contains_iff_mem.mpr h), rfl⟩)
    · exact .inr (.inr rfl)

theorem selfDelimiting_code : SelfDelimiting fun c : Char => Numeral.hex c.toNat ++ ['\x7d'] := by
  intro c d s t h
  obtain ⟨hcode, hrest⟩ :=
    Numeral.selfDelimiting_toDigits (b := 16) (by decide) (by decide) (by decide) h
  exact ⟨Char.toNat_inj.mp hcode, hrest⟩

/-- **A displayed character shows where it ends.** -/
theorem selfDelimiting_displayChar : SelfDelimiting displayChar := by
  intro c d s t h
  -- what is escaped is reserved and what is plain is not, so the first two characters tell the form
  have hbackslash : '\\' ∈ reserved := by decide
  have hu : 'u' ∉ reserved := by decide
  obtain ⟨hescaped, hc⟩ | ⟨hplain, hc⟩ | hc := displayChar_cases c <;>
    obtain ⟨hescaped', hd⟩ | ⟨hplain', hd⟩ | hd := displayChar_cases d <;>
    rw [hc, hd] at h <;>
    simp only [List.cons_append, List.nil_append, List.cons.injEq] at h
  case inr.inr.inr.inr => exact selfDelimiting_code h.2.2.2
  all_goals grind

/-! ## Bounds -/

/-- The upper bound, which may be missing. -/
def upperDigits (max : Option Nat) : List Char := max.elim [] (Nat.toDigits 10)

theorem displayBounds_append (min : Nat) (max : Option Nat) (rest : List Char) :
    displayBounds min max ++ rest =
      '\x7b' :: (Nat.toDigits 10 min ++ [','] ++ (upperDigits max ++ ['\x7d'] ++ rest)) := by
  cases max <;> simp [displayBounds, upperDigits]

theorem upperDigits_injective : Function.Injective upperDigits := by
  intro x y h
  cases x <;> cases y
  · rfl
  · exact absurd h.symm Nat.toDigits_ne_nil
  · exact absurd h Nat.toDigits_ne_nil
  · exact congrArg some (Numeral.toDigits_inj (by decide) (by decide) h)

theorem selfDelimiting_upperDigits : SelfDelimiting fun max => upperDigits max ++ ['\x7d'] := by
  refine selfDelimiting_terminated upperDigits_injective fun max hmem => ?_
  cases max with
  | none => cases hmem
  | some n => exact Numeral.notMem_toDigits (by decide) (by decide) (by decide) hmem

/-- **Displayed bounds show where they end.** -/
theorem displayBounds_cancel {min min' : Nat} {max max' : Option Nat}
    (h : displayBounds min max ++ s = displayBounds min' max' ++ t) :
    min = min' ∧ max = max' ∧ s = t := by
  rw [displayBounds_append, displayBounds_append] at h
  obtain ⟨hmin, hupper⟩ := Numeral.selfDelimiting_toDigits (by decide) (by decide) (by decide)
    (List.cons.inj h).2
  obtain ⟨hmax, hrest⟩ := selfDelimiting_upperDigits hupper
  exact ⟨hmin, hmax, hrest⟩

end Pattern

end IntervalAutomata
