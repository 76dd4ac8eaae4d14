import IntervalAutomata.Proofs.GuardedStates
import IntervalAutomata.Proofs.GuardedSweep
import IntervalAutomata.Proofs.RoundTrip

/-! # Decoding is safe

The guarded reader takes the same decisions as the ordinary one, and where it goes on it can rely on
them: the sections fill the body once its size agrees with the header, a state number is in range once
the number of states is known to be positive, and the automaton is valid before its marks are looked
at. -/

namespace IntervalAutomata.Binary

open Automaton

namespace Guarded

variable {h : Header} {a : Automaton} {accepts table records known : List UInt8}

theorem checkMinimal_eq (ha : a.Valid) (hcount : a.transitionCount < wordLimit) :
    checkMinimal h a =
    report (require (!h.isMinimal || a.deterministic) (.corrupt .minimalNotDeterministic)) >>=
      fun _ => report (require (!h.isMinimal || Binary.isTrimmed a) (.corrupt .minimalNotTrimmed)) := by
  rw [checkMinimal]
  cases h.isMinimal with
  | false => rfl
  | true =>
    rw [if_pos rfl, isTrimmed_eq ha hcount]
    refine require_congr fun hdet => ?_
    rw [pure_bind, ensure_eq hdet]
    exact bind_pure _

/-- Marks are checked without a fault. -/
theorem readMarks_eq (ha : a.Valid) (hcount : a.transitionCount < wordLimit)
    (hknown : h.singletonLength.toNat ≤ known.length) :
    readMarks h known a = report (Binary.readMarks h known a) := by
  have hmarked : ({ a with minimal := h.isMinimal } : Automaton).Valid := ha.congr rfl rfl
  rw [readMarks, Binary.readMarks, checkMinimal_eq ha hcount]
  simp only [report_bind, bind_assoc]
  refine require_congr fun _ => require_congr fun _ => require_congr fun _ => ?_
  split
  · rw [slice_eq (Nat.zero_le _) hknown, pure_bind, List.drop_zero]
    cases String.fromUTF8? (known.take h.singletonLength.toNat).toByteArray with
    | none => rfl
    | some text =>
      have hsame : Binary.denotesOnly { a with minimal := h.isMinimal } text =
          Binary.denotesOnly a text := by
        rw [Bool.eq_iff_iff, denotesOnly_iff hmarked, denotesOnly_iff ha]
        exact iff_of_eq (congrArg (· = _) (language_congr rfl rfl))
      dsimp only
      rw [denotesOnly_eq hmarked, pure_bind, report_bind, hsame]
      exact require_congr fun _ => rfl
  · rfl

theorem Cursor.take_part {bytes : List UInt8} (before part after : List UInt8)
    (hbytes : bytes = before ++ (part ++ after)) (hlimit : bytes.length < wordLimit) :
    Cursor.take ⟨bytes, before.length⟩ part.length =
      pure (part, ⟨bytes, (before ++ part).length⟩) := by
  subst hbytes
  rw [Cursor.take_eq (by simp) hlimit, List.drop_left, List.take_left, List.length_append]

theorem readBody_eq (h : Header) (body : List UInt8) :
    readBody h body = report (Binary.readBody h body) := by
  rw [readBody, Binary.readBody, bodySize_eq]
  simp only [report_bind, pure_bind, Option.some.injEq]
  refine require_congr fun _ => require_congr fun hsize => require_congr fun _ =>
    require_congr fun hinitial => require_congr fun _ => ?_
  have hinitial := of_decide_eq_true hinitial
  have hsize := of_decide_eq_true hsize
  have hlimit : body.length < wordLimit := hsize ▸ bodySize_lt h
  -- the header asks for as many bytes as there are, so each section lies inside the body
  obtain ⟨accepts, table, records, known, hbody, hs⟩ := exists_sections hsize
  have haccepts : Cursor.take ⟨body, 0⟩ accepts.length = pure (accepts, ⟨body, accepts.length⟩) :=
    Cursor.take_part [] _ _ hbody hlimit
  have htable := Cursor.take_part accepts _ _ hbody hlimit
  have hrecords := Cursor.take_part (accepts ++ table) records known
    (by rw [hbody, List.append_assoc]) hlimit
  have hknown := Cursor.take_part (accepts ++ table ++ records) known []
    (by rw [hbody, List.append_nil]; simp only [List.append_assoc]) hlimit
  rw [acceptSize_eq, pure_bind, offsetsSize_eq, transitionsSize_eq, singletonSize_eq,
    ← hs.length_bits, ← hs.length_offsets, ← hs.length_transitions, ← hs.length_singleton]
  simp only [pure_bind, haccepts, htable, hrecords, hknown]
  rw [readStates_eq hs hinitial, hbody]
  simp only [List.splitAt_eq, List.take_left, List.drop_left, bind_assoc, pure_bind]
  refine require_congr fun _ => report_congr fun states hstates => ?_
  obtain ⟨htail, hrecords, hadmissible, -⟩ := (readStates_eq_ok_iff hs.length_records).mp hstates
  have hlength := hs.length_states htail
  refine readMarks_eq (valid_ofStates_iff.mpr ⟨?_, fun s hs => ?_⟩) ?_ ?_
  · rw [hlength]
    exact hinitial
  · rw [hlength]
    exact hadmissible s hs
  · have hcount := hs.length_records
    rw [Nat.zero_add, hrecords] at hcount
    rw [Binary.transitionCount_eq]
    exact hcount.trans_lt ((toNat_lt _).trans (by decide))
  · rw [hs.length_singleton]
    exact le_alignUp _

/-- No bytes make decoding fault. -/
theorem decode_eq (hash : Hash) (bytes : List UInt8) :
    decode hash bytes = report (Binary.decode hash bytes) := by
  rw [decode, Binary.decode]
  simp only [report_bind]
  refine require_congr fun hsize => ?_
  rw [header_eq (of_decide_eq_true hsize), pure_bind]
  refine require_congr fun _ => require_congr fun _ => require_congr fun _ => ?_
  rw [slice_eq (of_decide_eq_true hsize) le_rfl, pure_bind, List.take_length]
  exact require_congr fun _ => readBody_eq _ _

end Guarded

/-- **Decoding is safe.** For any bytes it ends without a fault in an error or in an automaton, and
the automaton is sound: its numbers name states, its lists ascend, and its marks are truthful. -/
theorem decode_safe (hash : Hash) (bytes : List UInt8) :
    (Guarded.decode hash bytes).run = .ok (decode hash bytes) ∧
      ∀ a, decode hash bytes = .ok a →
        0 < a.size ∧ a.initial < a.size ∧
          (∀ q, ∀ t ∈ a.transitions q, t.target < a.size ∧ t.interval.min ≤ t.interval.max ∧
            t.interval.max ≤ maxSymbol) ∧
          (∀ q, (a.transitions q).Pairwise fun s t =>
            s.interval.min < t.interval.min ∨ s.interval.min = t.interval.min ∧
              (s.interval.max < t.interval.max ∨ s.interval.max = t.interval.max ∧
                s.target < t.target)) ∧
          (a.deterministic = true ↔ ∀ q, (a.transitions q).Pairwise fun s t =>
            s.interval.overlaps t.interval = false) ∧
          ∀ text, a.singleton = some text → ∀ w, w ∈ a.language ↔ w = symbols text := by
  refine ⟨by rw [Guarded.decode_eq]; rfl, fun a hok => ?_⟩
  obtain ⟨ha, -⟩ := wellFormed_of_decode hok
  refine ⟨Nat.zero_lt_of_lt ha.initial_lt, ha.initial_lt, fun q t ht => ?_, fun q => ?_,
    ha.deterministic_iff, fun text ht w => ?_⟩
  · have hproper := ha.proper q t ht
    exact ⟨ha.target_lt q t ht, hproper.min_le_max, hproper.max_le⟩
  · refine (ha.ascends q).imp fun {s t} hst => ?_
    rcases Transition.order_lt_iff.mp hst with h | ⟨h, htarget⟩
    · rcases Interval.order_lt_iff.mp h with h | ⟨h, hmax⟩
      · exact .inl h
      · exact .inr ⟨h, .inl hmax⟩
    · rw [h]
      exact .inr ⟨rfl, .inr ⟨rfl, htarget⟩⟩
  · rw [ha.known text ht]
    exact Iff.rfl

theorem decode_safe_twoEnds :
    let bytes := encode checksum twoEnds
    decode checksum bytes = .ok twoEnds ∧
      (Guarded.decode checksum bytes).run = .ok (decode checksum bytes) ∧
      (∀ w, w ∈ twoEnds.language ↔ w = symbols "a") ∧ decode checksum [] = .error (.tooSmall 0) ∧
      (Guarded.decode checksum []).run = .ok (decode checksum []) := by
  intro bytes
  obtain ⟨hrun, hsound⟩ := decode_safe checksum bytes
  have hdecode : decode checksum bytes = .ok twoEnds := storable_twoEnds.decode_eq checksum
  obtain ⟨-, -, -, -, -, hknown⟩ := hsound twoEnds hdecode
  exact ⟨hdecode, hrun, hknown "a" rfl, rfl, (decode_safe checksum []).1⟩

end IntervalAutomata.Binary
