import IntervalAutomata.Proofs.RoundTrip
import IntervalAutomata.Proofs.Totality

/-! # What a stored minimal mark is worth

Decoding asks of an automaton that is marked minimal that it is deterministic and has no useless states.
It does not ask that distinct states accept differently, and minimization, which returns what is marked
as it is, does not make up for that. So a stored mark is right exactly where the states are distinct,
and an automaton with two states for one language passes all checks. -/

namespace IntervalAutomata.Binary

open Automaton

variable {hash : Hash} {a : Automaton} {bytes : List UInt8} {q : Nat} {w : List Nat}

/-- **The checks together.** An automaton that fits into a module passes them exactly when it is
well-formed and, where it is marked minimal, deterministic without useless states. -/
theorem decode_encode_iff (hfits : headerSize + (body a).length < 2 ^ 32) :
    decode hash (encode hash a) = .ok a ↔
      a.WellFormed ∧ (a.minimal = true → a.deterministic = true ∧ (a.Trimmed ∨ Bare a)) :=
  ⟨wellFormed_of_decode, fun ⟨hwell, htrimmed⟩ => Admitted.decode_eq hash ⟨hwell, htrimmed, hfits⟩⟩

/-! ## What the mark says -/

theorem minimize_of_marked (ha : a.WellFormed) (hmark : a.minimal = true) : a.minimize.value = a := by
  obtain ⟨-, heq⟩ | ⟨hunmarked, -⟩ := ha.minimizeWith_eq_ok (outcome_minimize a)
  · exact heq
  · rw [hmark] at hunmarked
    cases hunmarked

/-- Without useless states only states that accept the same can be too many. -/
theorem least_iff_distinct (ha : a.WellFormed) (hs : a.Separated) (h : a.Trimmed ∨ Bare a) :
    a.Least ↔ a.Distinct := by
  refine ⟨fun hleast => hleast.distinct ha, fun hdistinct => ⟨hs, fun d hd hsd hlanguage => ?_⟩⟩
  obtain htrimmed | ⟨hone, -⟩ := h
  · obtain ⟨f, hf⟩ := htrimmed.exists_embedding (ha.toValid.functional hs) hd (hd.functional hsd) hlanguage
    exact hdistinct.size_le hf
  · rw [hone]
    exact Nat.lt_of_le_of_lt (Nat.zero_le _) hd.initial_lt

/-- Totality is read off the minimal form, so it is never claimed in vain. -/
theorem mem_language_of_isTotal (hminimize : a.minimize.value = a) (h : a.isTotal.value = true)
    (hw : ∀ c ∈ w, c ≤ maxSymbol) : w ∈ a.language := by
  have hloop := isTotal_iff_oneLoop.mp h
  rw [hminimize] at hloop
  exact hloop.mem_language hw

/-- **A decoded minimal mark means no useless states, and no more.** Minimization returns the automaton
as it is; whether it is the least one depends on its states being distinct, and where they are not,
totality may be denied but is not claimed in vain. -/
theorem decode_marked (hok : decode hash bytes = .ok a) (hmark : a.minimal = true) :
    a.WellFormed ∧ a.deterministic = true ∧ (a.Trimmed ∨ Bare a) ∧ a.minimize.value = a ∧
      (a.Least ↔ a.Distinct) ∧
      (a.isTotal.value = true → ∀ w, (∀ c ∈ w, c ≤ maxSymbol) → w ∈ a.language) := by
  obtain ⟨hwell, htrimmed⟩ := wellFormed_of_decode hok
  obtain ⟨hdet, htrimmed⟩ := htrimmed hmark
  have hminimize := minimize_of_marked hwell hmark
  exact ⟨hwell, hdet, htrimmed, hminimize, least_iff_distinct hwell (hwell.separated hdet) htrimmed,
    fun htotal _ => mem_language_of_isTotal hminimize htotal⟩

/-! ## A false mark -/

/-- Every word is accepted, in two states that lead to one another. -/
def crossing : Automaton :=
  ⟨#[⟨true, [⟨.full, 1⟩]⟩, ⟨true, [⟨.full, 0⟩]⟩], 0, true, true, none⟩

theorem mem_residual_crossing (hq : q < 2) (hw : ∀ c ∈ w, c ≤ maxSymbol) : w ∈ crossing.residual q := by
  refine mem_residual_of_closed (· < 2) (by decide) (fun q hq c hc => ⟨1 - q, ?_, by omega⟩) hq hw
  match q, hq with
  | 0, _ => exact ⟨⟨.full, 1⟩, .head _, contains_full hc, rfl⟩
  | 1, _ => exact ⟨⟨.full, 0⟩, .head _, contains_full hc, rfl⟩

theorem wellFormed_crossing : crossing.WellFormed := by
  have hvalid : crossing.Valid := by decide
  refine ⟨hvalid, iff_of_true rfl fun q => ?_, nofun⟩
  match q with
  | 0 => exact List.pairwise_singleton _ _
  | 1 => exact List.pairwise_singleton _ _
  | _ + 2 => exact .nil

theorem trimmed_crossing : crossing.Trimmed := by
  intro q hq
  refine ⟨?_, [], mem_residual_crossing hq (by simp)⟩
  match q, hq with
  | 0, _ => exact ⟨[], .nil 0⟩
  | 1, _ => exact ⟨[0], .cons ⟨⟨.full, 1⟩, .head _, by decide, rfl⟩ (.nil 1)⟩

theorem decode_encode_crossing : decode checksum (encode checksum crossing) = .ok crossing :=
  Admitted.decode_eq checksum ⟨wellFormed_crossing, fun _ => ⟨rfl, .inl trimmed_crossing⟩, by decide⟩

theorem decode_marked_crossing :
    decode checksum (encode checksum crossing) = .ok crossing ∧ crossing.minimal = true ∧
    crossing.minimize.value = crossing ∧ (crossing.Least ↔ crossing.Distinct) := by
  obtain ⟨-, -, -, hminimize, hleast, -⟩ := decode_marked decode_encode_crossing rfl
  exact ⟨decode_encode_crossing, rfl, hminimize, hleast⟩

/-- One state would do, and the automaton is total, but neither is noticed. -/
theorem false_mark_crossing :
    decode checksum (encode checksum crossing) = .ok crossing ∧ crossing.minimal = true ∧
    crossing.residual 0 = crossing.residual 1 ∧ ¬ crossing.Least ∧
    crossing.minimize.value.size = 2 ∧ crossing.isTotal.value = false ∧
    ∀ w, (∀ c ∈ w, c ≤ maxSymbol) → w ∈ crossing.language := by
  have hsame : crossing.residual 0 = crossing.residual 1 := by
    ext w
    have hvalid := wellFormed_crossing.toValid
    exact ⟨fun h => mem_residual_crossing (by decide) (hvalid.le_maxSymbol_of_mem_residual h),
      fun h => mem_residual_crossing (by decide) (hvalid.le_maxSymbol_of_mem_residual h)⟩
  have hminimize := minimize_of_marked wellFormed_crossing rfl
  refine ⟨decode_encode_crossing, rfl, hsame, fun hleast => ?_, by rw [hminimize]; rfl, ?_,
    fun w hw => mem_residual_crossing (by decide) hw⟩
  · exact absurd (hleast.distinct wellFormed_crossing 0 (by decide) 1 (by decide) hsame) (by decide)
  · rw [isTotal, Journal.value_bind, hminimize]
    rfl

end IntervalAutomata.Binary
