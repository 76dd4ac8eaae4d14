import IntervalAutomata.Proofs.MatchSearch
import Mathlib.Order.Bounds.Defs

/-! # The longest match at a byte offset

A byte offset has a rest of the text behind it exactly when it is the offset of a position. A word fills
the bytes between two positions exactly when it is what the text holds between them, so the matches from
a position on are the positions behind it up to which the text is accepted, and the walk ends at the
greatest of these. At an offset that is no position, inside a character or beyond the text, nothing
matches. -/

namespace IntervalAutomata

/-! ## Positions -/

section

variable {text : String} {offset : Nat} {start stop : text.Pos}

theorem isValid_iff_suffixAt? : String.Pos.Raw.IsValid text ⟨offset⟩ ↔
    ∃ rest, suffixAt? offset text.toList = some rest := by
  rw [String.Pos.Raw.isValid_iff_exists_append]
  simp only [suffixAt?_eq_some_iff]
  constructor
  · rintro ⟨before, after, rfl, hoffset⟩
    refine ⟨after.toList, before.toList, String.toList_append, ?_⟩
    rw [← utf8ByteSize_eq_byteLength]
    exact (congrArg String.Pos.Raw.byteIdx hoffset).symm
  · rintro ⟨after, before, htext, rfl⟩
    refine ⟨.ofList before, .ofList after, ?_, ?_⟩
    · rw [← String.ofList_append, ← htext, String.ofList_toList]
    · rw [String.rawEndPos, utf8ByteSize_eq_byteLength, String.toList_ofList]

theorem not_isValid_of_lt (h : text.utf8ByteSize < offset) : ¬ String.Pos.Raw.IsValid text ⟨offset⟩ :=
  fun hvalid => Nat.not_le_of_lt h (String.Pos.Raw.le_iff.mp hvalid.le_rawEndPos)

/-- A text falls into what is before, between and behind two positions. -/
theorem exists_extract (h : start ≤ stop) : ∃ before after,
    text = before ++ text.extract start stop ++ after ∧ before.utf8ByteSize = start.offset.byteIdx ∧
      start.offset.byteIdx + (text.extract start stop).utf8ByteSize = stop.offset.byteIdx := by
  have hle := String.Pos.Raw.le_iff.mp (String.Pos.le_iff.mp h)
  have hend := String.Pos.Raw.le_iff.mp stop.isValid.le_rawEndPos
  rw [String.byteIdx_rawEndPos] at hend
  have hsize : ∀ p q : text.Pos, (text.extract p q).utf8ByteSize =
      min q.offset.byteIdx text.utf8ByteSize - p.offset.byteIdx := by
    intro p q
    rw [← String.size_toByteArray, String.toByteArray_extract, ByteArray.size_extract,
      String.size_toByteArray]
  refine ⟨text.extract text.startPos start, text.extract stop text.endPos, ?_, ?_, ?_⟩
  · rw [← String.toByteArray_inj]
    simp only [String.toByteArray_append, String.toByteArray_extract, String.offset_startPos,
      String.Pos.Raw.byteIdx_zero, String.offset_endPos, String.byteIdx_rawEndPos]
    rw [← ByteArray.extract_eq_extract_append_extract _ (Nat.zero_le _) hle,
      ← ByteArray.extract_eq_extract_append_extract _ (Nat.zero_le _) hend, ← String.size_toByteArray,
      ByteArray.extract_zero_size]
  · rw [hsize, String.offset_startPos, String.Pos.Raw.byteIdx_zero]
    omega
  · rw [hsize]
    omega

/-- What is between two positions is known from the bytes before it and its own. -/
theorem extract_eq_of_append {before word after : String} (htext : text = before ++ word ++ after)
    (hbefore : before.utf8ByteSize = start.offset.byteIdx)
    (hword : start.offset.byteIdx + word.utf8ByteSize = stop.offset.byteIdx) :
    text.extract start stop = word := by
  have hbytes : text.toByteArray =
      before.toByteArray ++ (word.toByteArray ++ after.toByteArray) := by
    rw [htext, String.toByteArray_append, String.toByteArray_append, ByteArray.append_assoc]
  have hskip := ByteArray.extract_append_size_add' (b := word.toByteArray ++ after.toByteArray)
    (i := 0) (j := word.utf8ByteSize) (hbefore.symm.trans String.size_toByteArray.symm)
  rw [← String.toByteArray_inj, String.toByteArray_extract, ← hword, hbytes]
  exact hskip.trans (ByteArray.extract_append_eq_left String.size_toByteArray.symm)

end

/-! ## Matches -/

namespace Matcher

variable {m : Matcher} {text : String} {offset stop : Nat}

theorem Matches.isValid (h : m.Matches text offset stop) :
    String.Pos.Raw.IsValid text ⟨offset⟩ ∧ String.Pos.Raw.IsValid text ⟨stop⟩ := by
  obtain ⟨word, ⟨before, after, htext, rfl, rfl⟩, -⟩ := h
  rw [isValid_iff_suffixAt?, isValid_iff_suffixAt?, htext, ← byteLength_append]
  refine ⟨⟨word ++ after, ?_⟩, after, suffixAt?_byteLength⟩
  rw [List.append_assoc]
  exact suffixAt?_byteLength

/-- Where the matches from a position on end: there or further on, with an accepted text in between. -/
def ends (m : Matcher) {text : String} (start : text.Pos) : Set text.Pos :=
  {stop | start ≤ stop ∧ m.automaton.run (text.extract start stop) = true}

theorem mem_ends_iff {start stop : text.Pos} :
    stop ∈ m.ends start ↔ m.Matches text start.offset.byteIdx stop.offset.byteIdx := by
  show start ≤ stop ∧ m.automaton.run (text.extract start stop) = true ↔ _
  rw [← Algebra.value_accepts, ← Algebra.mem_texts]
  constructor
  · intro ⟨hle, hword⟩
    obtain ⟨before, after, htext, hbefore, hstop⟩ := exists_extract hle
    refine ⟨_, ⟨before.toList, after.toList, ?_, ?_, ?_⟩, hword⟩
    · rw [← String.toList_append, ← String.toList_append, ← htext]
    · rw [← utf8ByteSize_eq_byteLength, hbefore]
    · rw [← utf8ByteSize_eq_byteLength, hstop]
  · intro ⟨word, ⟨before, after, htext, hbefore, hstop⟩, hword⟩
    have hparts : text = String.ofList before ++ String.ofList word ++ String.ofList after := by
      rw [← String.ofList_append, ← String.ofList_append, ← htext, String.ofList_toList]
    have hextract : text.extract start stop = String.ofList word := by
      refine extract_eq_of_append hparts ?_ ?_
      · rw [utf8ByteSize_eq_byteLength, String.toList_ofList, hbefore]
      · rw [utf8ByteSize_eq_byteLength, String.toList_ofList, hstop]
    rw [hextract, String.toList_ofList]
    exact ⟨String.Pos.le_iff.mpr (String.Pos.Raw.le_iff.mpr (hstop ▸ Nat.le_add_right _ _)), hword⟩

/-- Every end of a match is a position. -/
theorem Matches.exists_mem_ends {start : text.Pos} (h : m.Matches text start.offset.byteIdx stop) :
    ∃ p ∈ m.ends start, p.offset.byteIdx = stop :=
  ⟨⟨⟨stop⟩, h.isValid.2⟩, mem_ends_iff.mpr h, rfl⟩

theorem isGreatest_ends_iff {start p : text.Pos} : IsGreatest (m.ends start) p ↔
    IsGreatest {stop | m.Matches text start.offset.byteIdx stop} p.offset.byteIdx := by
  refine and_congr mem_ends_iff ⟨fun h stop hstop => ?_, fun h q hq => ?_⟩
  · obtain ⟨q, hq, rfl⟩ := hstop.exists_mem_ends
    exact String.Pos.Raw.le_iff.mp (String.Pos.le_iff.mp (h hq))
  · exact String.Pos.le_iff.mpr (String.Pos.Raw.le_iff.mpr (h (mem_ends_iff.mp hq)))

/-- Where there is a rest of the text, the walk ends at the greatest match if there is one. -/
theorem longestAt_spec (hm : m.automaton.WellFormed) {rest : List Char}
    (h : suffixAt? offset text.toList = some rest) :
    match (m.longestAt text offset).value with
    | some stop => IsGreatest {stop | m.Matches text offset stop} stop
    | none => ∀ stop, ¬ m.Matches text offset stop := by
  have hlongest := longest_longest hm offset rest
  rw [longestAt, h]
  dsimp only
  generalize (m.longest offset rest).value = found at hlongest
  cases hlongest with
  | @found w hpre hmem hmax =>
    refine ⟨(matches_iff h).mpr ⟨w, hpre, hmem, rfl⟩, fun stop hstop => ?_⟩
    obtain ⟨u, hu, hmem', rfl⟩ := (matches_iff h).mp hstop
    exact Nat.add_le_add_left (hmax u hu hmem') _
  | missing hnone =>
    intro stop hstop
    obtain ⟨u, hu, hmem, -⟩ := (matches_iff h).mp hstop
    exact hnone u hu hmem

theorem longestAt_of_not_isValid (h : ¬ String.Pos.Raw.IsValid text ⟨offset⟩) :
    (m.longestAt text offset).value = none := by
  rw [isValid_iff_suffixAt?, not_exists] at h
  rw [longestAt]
  split
  · rename_i rest hrest
    exact absurd hrest (h rest)
  · rfl

/-- **The longest match at a byte offset.** Beyond the text and inside a character there is none. From a
position on it is the greatest of the positions up to which the text is accepted, and there is none
exactly when the text is accepted up to none of them. -/
theorem longestAt_exact (m : Matcher) (hm : m.automaton.WellFormed) (text : String) :
    (∀ offset, text.utf8ByteSize < offset ∨ ¬ String.Pos.Raw.IsValid text ⟨offset⟩ →
      (m.longestAt text offset).value = none) ∧
    ∀ start : text.Pos,
      (∀ stop, (m.longestAt text start.offset.byteIdx).value = some stop ↔
        ∃ p, IsGreatest (m.ends start) p ∧ p.offset.byteIdx = stop) ∧
      ((m.longestAt text start.offset.byteIdx).value = none ↔ m.ends start = ∅) := by
  refine ⟨fun offset h => longestAt_of_not_isValid (h.elim not_isValid_of_lt id), fun start => ?_⟩
  obtain ⟨rest, hrest⟩ := isValid_iff_suffixAt?.mp start.isValid
  have hspec := longestAt_spec hm hrest
  rw [Set.eq_empty_iff_forall_notMem]
  cases hvalue : (m.longestAt text start.offset.byteIdx).value with
  | some stop =>
    rw [hvalue] at hspec
    obtain ⟨p, hp, rfl⟩ := hspec.1.exists_mem_ends
    refine ⟨fun stop => ⟨fun h => ?_, fun ⟨q, hq, hstop⟩ => ?_⟩, iff_of_false nofun fun h => h p hp⟩
    · exact ⟨p, isGreatest_ends_iff.mpr hspec, Option.some.inj h⟩
    · rw [← hstop, hspec.unique (isGreatest_ends_iff.mp hq)]
  | none =>
    rw [hvalue] at hspec
    have hempty : ∀ p, p ∉ m.ends start := fun p hp => hspec _ (mem_ends_iff.mp hp)
    exact ⟨fun stop => iff_of_false nofun fun ⟨p, hp, _⟩ => hempty p hp.1, iff_of_true rfl hempty⟩

/-- Beyond the text, inside a character, and at a position from which `éa` is the longest match. -/
theorem longestAt_accented : accented.automaton.WellFormed ∧
    (accented.longestAt "aébéa" 8).value = none ∧ (accented.longestAt "aébéa" 5).value = none ∧
    ∃ start stop : String.Pos "aébéa", start.offset.byteIdx = 4 ∧ stop.offset.byteIdx = 7 ∧
      IsGreatest (accented.ends start) stop := by
  have hm : accented.automaton.WellFormed := Automaton.wellFormed_ofStates (by decide)
  obtain ⟨hnone, hsome⟩ := accented.longestAt_exact hm "aébéa"
  have hstart : String.Pos.Raw.IsValid "aébéa" ⟨4⟩ := isValid_iff_suffixAt?.mpr ⟨['é', 'a'], by decide⟩
  have hinside : ¬ String.Pos.Raw.IsValid "aébéa" ⟨5⟩ := by
    rw [isValid_iff_suffixAt?, show suffixAt? 5 "aébéa".toList = none by decide]
    exact fun ⟨_, h⟩ => nomatch h
  have hseven : (accented.longestAt "aébéa" 4).value = some 7 := by decide
  obtain ⟨stop, hgreatest, hstop⟩ := ((hsome ⟨⟨4⟩, hstart⟩).1 7).mp hseven
  exact ⟨hm, hnone 8 (.inl (by decide)), hnone 5 (.inr hinside), ⟨⟨4⟩, hstart⟩, stop, rfl, hstop,
    hgreatest⟩

end Matcher

end IntervalAutomata
