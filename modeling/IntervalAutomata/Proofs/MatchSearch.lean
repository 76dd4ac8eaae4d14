import IntervalAutomata.Match.Search
import IntervalAutomata.Proofs.Assembly
import IntervalAutomata.Proofs.LongestMatch

/-! # Searching for matches

A search turns at one character boundary after the other: it reports the longest match there and goes on
behind it, or passes to the next boundary. Every turn shortens the text that is left, so the turns come
to an end, and what they report is what the calls of the search return one by one. The properties of the
matches are carried from the last turn back to the first: at a boundary behind the offset of a turn
either the next turn takes place, or a match that has just been reported covers it. -/

namespace IntervalAutomata

/-- `word` fills the text between two byte offsets, which are character boundaries then. -/
def Fills (text : String) (start stop : Nat) (word : List Char) : Prop :=
  ∃ before after, text.toList = before ++ word ++ after ∧ byteLength before = start ∧
    start + byteLength word = stop

/-- The part of the text between two byte offsets is accepted. -/
def Matcher.Matches (m : Matcher) (text : String) (start stop : Nat) : Prop :=
  ∃ word, Fills text start stop word ∧ word ∈ Algebra.texts m.automaton

/-! ## Boundaries -/

section

variable {text : List Char} {rest after u : List Char} {offset p : Nat}

theorem suffixAt?_append (h : suffixAt? offset text = some (u ++ rest)) :
    suffixAt? (offset + byteLength u) text = some rest := by
  obtain ⟨before, rfl, rfl⟩ := suffixAt?_eq_some_iff.mp h
  rw [← byteLength_append, ← List.append_assoc]
  exact suffixAt?_byteLength

/-- What lies between two boundaries. -/
theorem exists_of_suffixAt? (h : suffixAt? offset text = some rest)
    (hp : suffixAt? p text = some after) (hle : offset ≤ p) :
    ∃ u, rest = u ++ after ∧ p = offset + byteLength u := by
  obtain ⟨before, htext, rfl⟩ := suffixAt?_eq_some_iff.mp h
  obtain ⟨before', rfl, rfl⟩ := suffixAt?_eq_some_iff.mp hp
  obtain ⟨u, rfl, hrest⟩ | ⟨u, hbefore, hafter⟩ := List.append_eq_append_iff.mp htext
  · have hu : u = [] := by
      rw [byteLength_append] at hle
      exact byteLength_eq_zero_iff.mp (by omega)
    subst hu
    exact ⟨[], by simpa using hrest.symm, by simp⟩
  · exact ⟨u, hafter, by rw [hbefore, byteLength_append]⟩

end

namespace Matcher

variable {m : Matcher} {text : String} {start stop : Nat} {rest : List Char}

/-- The matches at a boundary are the accepted texts that the rest starts with. -/
theorem matches_iff (h : suffixAt? start text.toList = some rest) :
    m.Matches text start stop ↔
      ∃ u, u <+: rest ∧ u ∈ Algebra.texts m.automaton ∧ stop = start + byteLength u := by
  constructor
  · intro ⟨u, ⟨before, after, htext, hbefore, hstop⟩, hu⟩
    have := suffixAt?_eq_some_iff.mpr ⟨before, htext.trans (List.append_assoc ..), hbefore⟩
    obtain rfl := Option.some.inj (h.symm.trans this)
    exact ⟨u, List.prefix_append _ _, hu, hstop.symm⟩
  · intro ⟨u, ⟨after, hrest⟩, hu, hstop⟩
    subst hrest hstop
    obtain ⟨before, htext, hbefore⟩ := suffixAt?_eq_some_iff.mp h
    exact ⟨u, ⟨before, after, htext.trans (List.append_assoc ..).symm, hbefore, rfl⟩, hu⟩

theorem Matches.exists_suffix (h : m.Matches text start stop) :
    ∃ rest, suffixAt? start text.toList = some rest := by
  obtain ⟨u, ⟨before, after, htext, hbefore, -⟩, -⟩ := h
  exact ⟨u ++ after, suffixAt?_eq_some_iff.mpr ⟨before, htext.trans (List.append_assoc ..), hbefore⟩⟩

end Matcher

namespace Search

variable {m : Matcher} {offset stop : Nat} {lastEnd : Option Nat} {rest : List Char}

/-! ## One turn -/

/-- Sightings apart, the longest match is reported unless it is empty and touches the previous one. -/
theorem value_matchHere (m : Matcher) (offset : Nat) (lastEnd : Option Nat) (rest : List Char) :
    (matchHere m offset lastEnd rest).value =
      (m.longest offset rest).value.filter fun stop => !(stop = offset && lastEnd = some offset) := by
  rw [matchHere, Journal.value_bind]
  cases (m.longest offset rest).value with
  | none => rfl
  | some stop =>
    dsimp only
    rw [Option.filter_some]
    split
    · rename_i h
      rw [h]
      rfl
    · rename_i h
      rw [Bool.not_eq_true] at h
      rw [h]
      rfl

theorem le_matchHere (h : (matchHere m offset lastEnd rest).value = some stop) : offset ≤ stop := by
  rw [value_matchHere, Option.filter_eq_some_iff] at h
  exact Matcher.le_longest h.1

theorem exists_of_matchHere (hm : m.automaton.WellFormed)
    (h : (matchHere m offset lastEnd rest).value = some stop) :
    ∃ u, u <+: rest ∧ u ∈ Algebra.texts m.automaton ∧ stop = offset + byteLength u ∧
      (∀ v, v <+: rest → v ∈ Algebra.texts m.automaton → byteLength v ≤ byteLength u) ∧
      (lastEnd = some offset → offset < stop) := by
  rw [value_matchHere, Option.filter_eq_some_iff] at h
  obtain ⟨hlongest, hreport⟩ := h
  have hspec := Matcher.longest_longest hm offset rest
  rw [hlongest] at hspec
  cases hspec with
  | @found u hpre hu hmax =>
    refine ⟨u, hpre, hu, rfl, hmax, fun hlast => ?_⟩
    have hlonger : offset + byteLength u ≠ offset := by simpa [hlast] using hreport
    omega

theorem eq_nil_of_matchHere (hm : m.automaton.WellFormed)
    (h : (matchHere m offset lastEnd rest).value = none) {u : List Char} (hpre : u <+: rest)
    (hu : u ∈ Algebra.texts m.automaton) : u = [] ∧ lastEnd = some offset := by
  rw [value_matchHere, Option.filter_eq_none_iff] at h
  have hspec := Matcher.longest_longest hm offset rest
  cases hvalue : (m.longest offset rest).value with
  | none =>
    rw [hvalue] at hspec
    cases hspec with
    | missing hnone => exact absurd hu (hnone u hpre)
  | some stop =>
    rw [hvalue] at hspec
    cases hspec with
    | @found w _ _ hmax =>
      have hempty : offset + byteLength w = offset ∧ lastEnd = some offset := by
        simpa using h _ hvalue
      have := hmax u hpre hu
      exact ⟨byteLength_eq_zero_iff.mp (by omega), hempty.2⟩

theorem resume_self (offset : Nat) (rest : List Char) :
    resume offset offset rest = advance offset (some offset) rest := if_pos rfl

theorem resume_append {u after : List Char} (hu : u ≠ []) :
    resume offset (offset + byteLength u) (u ++ after) =
      ⟨offset + byteLength u, some after, some (offset + byteLength u)⟩ := by
  have hlength : byteLength u ≠ 0 := mt byteLength_eq_zero_iff.mp hu
  rw [resume, if_neg (by omega), Nat.add_sub_cancel_left, suffixAt?_byteLength]

/-! ## All turns

`Scan` lists what the turns from some place on report, as the loop takes them. -/

inductive Scan (m : Matcher) : Search → List (Nat × Nat) → Prop
  | past (offset : Nat) (lastEnd : Option Nat) : Scan m ⟨offset, none, lastEnd⟩ []
  | pass {offset : Nat} {rest : List Char} {lastEnd : Option Nat} {found : List (Nat × Nat)} :
      (matchHere m offset lastEnd rest).value = none →
      Scan m (advance offset lastEnd rest) found → Scan m ⟨offset, some rest, lastEnd⟩ found
  | report {offset stop : Nat} {rest : List Char} {lastEnd : Option Nat}
      {found : List (Nat × Nat)} :
      (matchHere m offset lastEnd rest).value = some stop →
      Scan m (resume offset stop rest) found →
      Scan m ⟨offset, some rest, lastEnd⟩ ((offset, stop) :: found)

/-- The turns that are left at most. -/
def remaining (s : Search) : Nat := s.rest.elim 0 (·.length + 1)

theorem remaining_advance : (advance offset lastEnd rest).remaining = rest.length := by
  cases rest <;> rfl

theorem remaining_resume (hm : m.automaton.WellFormed)
    (h : (matchHere m offset lastEnd rest).value = some stop) :
    (resume offset stop rest).remaining ≤ rest.length := by
  obtain ⟨u, ⟨after, rfl⟩, -, rfl, -, -⟩ := exists_of_matchHere hm h
  by_cases hu : u = []
  · subst hu
    exact Nat.le_of_eq ((congrArg remaining (resume_self offset _)).trans remaining_advance)
  · rw [resume_append hu, List.length_append]
    have := List.length_pos_iff.mpr hu
    show after.length + 1 ≤ _
    omega

theorem exists_scan (hm : m.automaton.WellFormed) (s : Search) :
    ∃ found, Scan m s found ∧ found.length ≤ s.remaining := by
  obtain ⟨n, hn⟩ : ∃ n, s.remaining ≤ n := ⟨_, Nat.le_refl _⟩
  induction n generalizing s with
  | zero =>
    obtain ⟨offset, _ | rest, lastEnd⟩ := s
    · exact ⟨[], .past _ _, Nat.le_refl _⟩
    · exact absurd hn (Nat.not_succ_le_zero _)
  | succ n ih =>
    obtain ⟨offset, _ | rest, lastEnd⟩ := s
    · exact ⟨[], .past _ _, Nat.le_refl _⟩
    · have hn : rest.length ≤ n := Nat.le_of_succ_le_succ hn
      cases hhere : (matchHere m offset lastEnd rest).value with
      | none =>
        obtain ⟨found, hscan, hlength⟩ := ih (advance offset lastEnd rest) (by rwa [remaining_advance])
        rw [remaining_advance] at hlength
        exact ⟨found, .pass hhere hscan, Nat.le_succ_of_le hlength⟩
      | some stop =>
        have hless := remaining_resume hm hhere
        obtain ⟨found, hscan, hlength⟩ := ih (resume offset stop rest) (Nat.le_trans hless hn)
        exact ⟨_, .report hhere hscan, Nat.succ_le_succ (Nat.le_trans hlength hless)⟩

/-- A call of the search passes boundaries until there is something to report. -/
theorem value_next (m : Matcher) (offset : Nat) (lastEnd : Option Nat) (rest : List Char) :
    ((⟨offset, some rest, lastEnd⟩ : Search).next m).value =
      match (matchHere m offset lastEnd rest).value with
      | some stop => (some (offset, stop), resume offset stop rest)
      | none => ((advance offset lastEnd rest).next m).value := by
  rw [next]
  dsimp only
  rw [nextFrom.eq_def]
  cases rest <;> dsimp only <;> rw [Journal.value_bind] <;>
    cases (matchHere m offset lastEnd _).value <;> rfl

/-- A call returns the first of the matches that are left. -/
theorem Scan.next {s : Search} {found : List (Nat × Nat)} (h : Scan m s found) :
    (s.next m).value.1 = found.head? ∧ Scan m (s.next m).value.2 found.tail := by
  induction h with
  | past => exact ⟨rfl, .past _ _⟩
  | pass hhere _ ih => rwa [value_next, hhere]
  | report hhere hscan _ =>
    rw [value_next, hhere]
    exact ⟨rfl, hscan⟩

/-- Where a search stands after some number of calls. -/
def after (m : Matcher) : (calls : Nat) → Search → Search
  | 0, s => s
  | calls + 1, s => after m calls (s.next m).value.2

theorem Scan.answer {s : Search} {found : List (Nat × Nat)} (h : Scan m s found) (calls : Nat) :
    ((after m calls s).next m).value.1 = found[calls]? := by
  induction calls generalizing s found with
  | zero => rw [after, h.next.1, List.head?_eq_getElem?]
  | succ calls ih => rw [after, ih h.next.2, List.getElem?_tail]

theorem Scan.collect_eq {s : Search} {found : List (Nat × Nat)} {fuel : Nat} (h : Scan m s found)
    (hfuel : found.length ≤ fuel) : collect m fuel s = found := by
  induction fuel generalizing s found with
  | zero => exact (List.length_eq_zero_iff.mp (Nat.le_zero.mp hfuel)).symm
  | succ fuel ih =>
    have ⟨hhead, htail⟩ := h.next
    rw [collect]
    cases hvalue : (s.next m).value with
    | mk first s' =>
      rw [hvalue] at hhead htail
      cases found with
      | nil =>
        obtain rfl : first = none := hhead
        rfl
      | cons x found =>
        obtain rfl : first = some x := hhead
        exact congrArg _ (ih htail (Nat.le_of_succ_le_succ hfuel))

theorem scan_findAll (hm : m.automaton.WellFormed) (text : String) :
    Scan m (start text) (m.findAll text) := by
  obtain ⟨found, hscan, hlength⟩ := exists_scan hm (start text)
  rw [Matcher.findAll, hscan.collect_eq (by rwa [← String.length_toList])]
  exact hscan

/-! ## Where a search stands -/

/-- At a character boundary or behind all of them, and at or behind the end of the previous match. -/
structure Located (text : String) (s : Search) : Prop where
  here : ∀ rest, s.rest = some rest → suffixAt? s.offset text.toList = some rest
  past : s.rest = none → ∀ p, s.offset ≤ p → suffixAt? p text.toList = none
  lastEnd_le : ∀ stop, s.lastEnd = some stop → stop ≤ s.offset

variable {text : String} {p : Nat}

theorem located_start (text : String) : Located text (start text) where
  here rest h := by
    rw [← Option.some.inj h]
    exact suffixAt?_byteLength (u := [])
  past := nofun
  lastEnd_le := nofun

theorem lt_offset_advance (offset : Nat) (lastEnd : Option Nat) (rest : List Char) :
    offset < (advance offset lastEnd rest).offset := by
  cases rest with
  | nil => exact Nat.lt_succ_self offset
  | cons c rest => exact Nat.lt_add_of_pos_right c.utf8Size_pos

@[simp] theorem lastEnd_advance : (advance offset lastEnd rest).lastEnd = lastEnd := by
  cases rest <;> rfl

/-- One character further on is the next boundary. -/
theorem offset_advance_le {after : List Char} (h : suffixAt? offset text.toList = some rest)
    (hp : suffixAt? p text.toList = some after) (hlt : offset < p) :
    (advance offset lastEnd rest).offset ≤ p := by
  obtain ⟨u, rfl, rfl⟩ := exists_of_suffixAt? h hp (Nat.le_of_lt hlt)
  cases u with
  | nil => exact absurd hlt (Nat.lt_irrefl _)
  | cons c u => exact Nat.add_le_add_left (Nat.le_add_right _ _) _

theorem located_advance (h : suffixAt? offset text.toList = some rest)
    (hlast : ∀ stop, lastEnd = some stop → stop ≤ offset) :
    Located text (advance offset lastEnd rest) where
  here after hafter := by
    cases rest with
    | nil => cases hafter
    | cons c rest =>
      rw [← Option.some.inj hafter]
      exact suffixAt?_append (u := [c]) h
  past hnone p hp := by
    cases rest with
    | nil =>
      by_contra hsome
      obtain ⟨after, hafter⟩ := Option.ne_none_iff_exists'.mp hsome
      obtain ⟨u, hu, rfl⟩ := exists_of_suffixAt? h hafter (Nat.le_of_succ_le hp)
      rw [(List.append_eq_nil_iff.mp hu.symm).1] at hp
      exact Nat.lt_irrefl _ hp
    | cons c rest => cases hnone
  lastEnd_le stop hstop := by
    rw [lastEnd_advance] at hstop
    exact Nat.le_trans (hlast stop hstop) (Nat.le_of_lt (lt_offset_advance _ _ _))

/-- After a match the search stands behind its start, at its end or, where it is empty, one character
further on. -/
theorem resume_cases (hm : m.automaton.WellFormed)
    (h : (matchHere m offset lastEnd rest).value = some stop) :
    stop = offset ∧ resume offset stop rest = advance offset (some stop) rest ∨
      ∃ u after, rest = u ++ after ∧ stop = offset + byteLength u ∧ offset < stop ∧
        resume offset stop rest = ⟨stop, some after, some stop⟩ := by
  obtain ⟨u, ⟨after, rfl⟩, -, rfl, -, -⟩ := exists_of_matchHere hm h
  by_cases hu : u = []
  · subst hu
    exact .inl ⟨rfl, resume_self offset _⟩
  · have : byteLength u ≠ 0 := mt byteLength_eq_zero_iff.mp hu
    exact .inr ⟨u, after, rfl, rfl, by omega, resume_append hu⟩

theorem lastEnd_resume (hm : m.automaton.WellFormed)
    (h : (matchHere m offset lastEnd rest).value = some stop) :
    (resume offset stop rest).lastEnd = some stop := by
  obtain ⟨-, heq⟩ | ⟨u, after, -, -, -, heq⟩ := resume_cases hm h <;> rw [heq]
  exact lastEnd_advance

theorem lt_offset_resume (h : (matchHere m offset lastEnd rest).value = some stop) :
    offset < (resume offset stop rest).offset := by
  have hle := le_matchHere h
  rw [resume]
  split
  · exact lt_offset_advance _ _ _
  · show offset < stop
    omega

theorem located_resume (hm : m.automaton.WellFormed)
    (h : (matchHere m offset lastEnd rest).value = some stop)
    (hrest : suffixAt? offset text.toList = some rest) : Located text (resume offset stop rest) := by
  obtain ⟨rfl, heq⟩ | ⟨u, after, rfl, rfl, -, heq⟩ := resume_cases hm h <;> rw [heq]
  · exact located_advance hrest fun e he => Nat.le_of_eq (Option.some.inj he).symm
  · exact
      { here := fun rest h => (suffixAt?_append hrest).trans h
        past := nofun
        lastEnd_le := fun e he => Nat.le_of_eq (Option.some.inj he).symm }

/-- A boundary behind a match that has been reported lies inside it or is still to come. -/
theorem offset_resume_le (hm : m.automaton.WellFormed)
    (h : (matchHere m offset lastEnd rest).value = some stop) {after : List Char}
    (hrest : suffixAt? offset text.toList = some rest) (hp : suffixAt? p text.toList = some after)
    (hlt : offset < p) : p < stop ∨ (resume offset stop rest).offset ≤ p := by
  obtain ⟨rfl, heq⟩ | ⟨u, after, -, -, -, heq⟩ := resume_cases hm h <;> rw [heq]
  · exact .inr (offset_advance_le hrest hp hlt)
  · exact Nat.lt_or_ge p stop

/-! ## What a search finds -/

variable {s : Search} {found : List (Nat × Nat)}

theorem Scan.longest (h : Scan m s found) (hm : m.automaton.WellFormed) (hs : Located text s) :
    ∀ x ∈ found, m.Matches text x.1 x.2 ∧ ∀ stop, m.Matches text x.1 stop → stop ≤ x.2 := by
  induction h with
  | past => simp
  | pass _ _ ih => exact ih (located_advance (hs.here _ rfl) hs.lastEnd_le)
  | report hhere _ ih =>
    have hrest := hs.here _ rfl
    obtain ⟨u, hpre, hu, rfl, hmax, -⟩ := exists_of_matchHere hm hhere
    refine List.forall_mem_cons.mpr ⟨⟨?_, fun stop hstop => ?_⟩, ih (located_resume hm hhere hrest)⟩
    · exact (Matcher.matches_iff hrest).mpr ⟨u, hpre, hu, rfl⟩
    · obtain ⟨v, hv, hmem, rfl⟩ := (Matcher.matches_iff hrest).mp hstop
      exact Nat.add_le_add_left (hmax v hv hmem) _

/-- What is found starts at or behind the place of the search, and is not empty where a match ended. -/
theorem Scan.behind (h : Scan m s found) (hm : m.automaton.WellFormed) (hs : Located text s) :
    ∀ x ∈ found, s.offset ≤ x.1 ∧ (s.lastEnd = some x.1 → x.1 < x.2) := by
  induction h with
  | past => simp
  | pass _ _ ih =>
    intro x hx
    obtain ⟨hle, hlast⟩ := ih (located_advance (hs.here _ rfl) hs.lastEnd_le) x hx
    rw [lastEnd_advance] at hlast
    exact ⟨Nat.le_trans (Nat.le_of_lt (lt_offset_advance _ _ _)) hle, hlast⟩
  | report hhere _ ih =>
    obtain ⟨u, -, -, -, -, hlast⟩ := exists_of_matchHere hm hhere
    refine List.forall_mem_cons.mpr ⟨⟨Nat.le_refl _, hlast⟩, fun x hx => ?_⟩
    obtain ⟨hle, -⟩ := ih (located_resume hm hhere (hs.here _ rfl)) x hx
    have hlt := Nat.lt_of_lt_of_le (lt_offset_resume hhere) hle
    refine ⟨Nat.le_of_lt hlt, fun hx => ?_⟩
    exact absurd hlt (Nat.not_lt_of_le (hs.lastEnd_le _ hx))

theorem Scan.ordered (h : Scan m s found) (hm : m.automaton.WellFormed) (hs : Located text s) :
    found.Pairwise fun x y => x.1 < y.1 ∧ x.2 ≤ y.1 ∧ (x.2 = y.1 → y.1 < y.2) := by
  induction h with
  | past => exact .nil
  | pass _ _ ih => exact ih (located_advance (hs.here _ rfl) hs.lastEnd_le)
  | report hhere hscan ih =>
    have hresume := located_resume hm hhere (hs.here _ rfl)
    have hlast := lastEnd_resume hm hhere
    refine List.pairwise_cons.mpr ⟨fun x hx => ?_, ih hresume⟩
    obtain ⟨hle, hnonempty⟩ := hscan.behind hm hresume x hx
    refine ⟨Nat.lt_of_lt_of_le (lt_offset_resume hhere) hle,
      Nat.le_trans (hresume.lastEnd_le _ hlast) hle, fun hstop => hnonempty ?_⟩
    rw [hlast]
    exact congrArg some hstop

/-- No accepted text at `p` is lost: a match lies over `p`, starts at `p`, or ends at `p` where nothing
but the empty text is accepted. -/
def Covered (m : Matcher) (text : String) (lastEnd : Option Nat) (found : List (Nat × Nat))
    (p : Nat) : Prop :=
  (∃ x ∈ found, x.1 < p ∧ p < x.2) ∨ (∃ x ∈ found, x.1 = p) ∨
    (∀ stop, m.Matches text p stop → stop = p) ∧ (lastEnd = some p ∨ ∃ x ∈ found, x.2 = p)

theorem Covered.cons {x : Nat × Nat} (h : Covered m text (some x.2) found p) :
    Covered m text lastEnd (x :: found) p := by
  obtain ⟨y, hy, hin⟩ | ⟨y, hy, hstart⟩ | ⟨hempty, hend | ⟨y, hy, hend⟩⟩ := h
  · exact .inl ⟨y, .tail x hy, hin⟩
  · exact .inr (.inl ⟨y, .tail x hy, hstart⟩)
  · exact .inr (.inr ⟨hempty, .inr ⟨x, .head found, Option.some.inj hend⟩⟩)
  · exact .inr (.inr ⟨hempty, .inr ⟨y, .tail x hy, hend⟩⟩)

theorem Scan.covered (h : Scan m s found) (hm : m.automaton.WellFormed) (hs : Located text s)
    (hle : s.offset ≤ p) (hp : m.Matches text p stop) : Covered m text s.lastEnd found p := by
  obtain ⟨after, hafter⟩ := hp.exists_suffix
  induction h with
  | past =>
    rw [hs.past rfl p hle] at hafter
    cases hafter
  | @pass offset rest lastEnd found hhere _ ih =>
    have hrest := hs.here _ rfl
    obtain hlt | hstart := Nat.lt_or_eq_of_le hle
    · have hcovered := ih (located_advance hrest hs.lastEnd_le) (offset_advance_le hrest hafter hlt)
      rwa [lastEnd_advance] at hcovered
    · obtain rfl : offset = p := hstart
      have hempty : ∀ stop, m.Matches text offset stop → stop = offset ∧ lastEnd = some offset := by
        intro stop hstop
        obtain ⟨u, hpre, hu, rfl⟩ := (Matcher.matches_iff hrest).mp hstop
        obtain ⟨rfl, hlast⟩ := eq_nil_of_matchHere hm hhere hpre hu
        exact ⟨rfl, hlast⟩
      exact .inr (.inr ⟨fun stop hstop => (hempty stop hstop).1, .inl (hempty _ hp).2⟩)
  | report hhere _ ih =>
    have hrest := hs.here _ rfl
    obtain hlt | rfl := Nat.lt_or_eq_of_le hle
    · obtain hinside | hbehind := offset_resume_le hm hhere hrest hafter hlt
      · exact .inl ⟨_, .head _, hlt, hinside⟩
      · have hcovered := ih (located_resume hm hhere hrest) hbehind
        rw [lastEnd_resume hm hhere] at hcovered
        exact hcovered.cons
    · exact .inr (.inl ⟨_, .head _, rfl⟩)

end Search

/-- **A search finds the longest match at each start, leftmost first, without overlap and without loss**,
and its calls return the matches one by one and nothing after the last. -/
theorem Matcher.findAll_leftmost_longest (m : Matcher) (hm : m.automaton.WellFormed) (text : String) :
    (∀ calls, ((Search.after m calls (Search.start text)).next m).value.1 = (m.findAll text)[calls]?) ∧
    (∀ x ∈ m.findAll text, m.Matches text x.1 x.2 ∧ ∀ stop, m.Matches text x.1 stop → stop ≤ x.2) ∧
    (m.findAll text).Pairwise (fun x y => x.1 < y.1 ∧ x.2 ≤ y.1 ∧ (x.2 = y.1 → y.1 < y.2)) ∧
    ∀ p stop, m.Matches text p stop →
      (∃ x ∈ m.findAll text, x.1 < p ∧ p < x.2) ∨ (∃ x ∈ m.findAll text, x.1 = p) ∨
        (∀ stop, m.Matches text p stop → stop = p) ∧ ∃ x ∈ m.findAll text, x.2 = p := by
  have hscan := Search.scan_findAll hm text
  have hstart := Search.located_start text
  refine ⟨hscan.answer, hscan.longest hm hstart, hscan.ordered hm hstart, fun p stop hp => ?_⟩
  obtain hinside | hfirst | ⟨hempty, hlast | hend⟩ := hscan.covered hm hstart (Nat.zero_le p) hp
  · exact .inl hinside
  · exact .inr (.inl hfirst)
  · cases hlast
  · exact .inr (.inr ⟨hempty, hend⟩)

/-- Any number of `a`, each of them perhaps behind an `é`. -/
def Matcher.accented : Matcher :=
  ⟨.ofStates [⟨true, [⟨⟨97, 97⟩, 0⟩, ⟨⟨233, 233⟩, 1⟩]⟩, ⟨false, [⟨⟨97, 97⟩, 0⟩]⟩] 0, rfl⟩

/-- The empty matches at 1 and 7 touch the previous match, the one at 3 does not. -/
theorem Matcher.findAll_accented : accented.automaton.WellFormed ∧
    accented.findAll "aébéa" = [(0, 1), (3, 3), (4, 7)] ∧
    (∀ stop, accented.Matches "aébéa" 4 stop → stop ≤ 7) ∧
    ∀ calls, 3 ≤ calls →
      ((Search.after accented calls (Search.start "aébéa")).next accented).value.1 = none := by
  have hm : accented.automaton.WellFormed := Automaton.wellFormed_ofStates (by decide)
  have hfound : accented.findAll "aébéa" = [(0, 1), (3, 3), (4, 7)] := by decide
  obtain ⟨hcalls, hlongest, -, -⟩ := accented.findAll_leftmost_longest hm "aébéa"
  rw [hfound] at hcalls hlongest
  refine ⟨hm, hfound, (hlongest (4, 7) (by decide)).2, fun calls h => ?_⟩
  rw [hcalls, List.getElem?_eq_none h]

end IntervalAutomata
