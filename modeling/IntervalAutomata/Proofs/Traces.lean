import IntervalAutomata.Proofs.LongestAt

/-! # Traces tell the truth

The sightings of a walk fall into one group for each character it looks at: the lookup itself and, where
that leads to an accepting state, the acceptance. So the lookups say everything, and each of them goes on
from the state that the one before it has reached. A search adds an attempt at each boundary that it
tries and a report for each match that it returns, and it never turns back, so attempts come in ascending
order and reports are what the calls have returned. -/

namespace IntervalAutomata

open Automaton

/-! ## Kinds of sightings -/

namespace Sighting

/-- The start of an attempt. -/
def attempted? : Sighting → Option Nat
  | attempt start => some start
  | _ => none

/-- The end that an acceptance stands for. -/
def accepted? : Sighting → Option Nat
  | accept _ stop => some stop
  | _ => none

/-- The match that a search reports. -/
def reported? : Sighting → Option (Nat × Nat)
  | found start stop => some (start, stop)
  | _ => none

end Sighting

/-! ## Characters and their places -/

/-- The characters of a text with their byte offsets. -/
def placed (offset : Nat) : List Char → List (Nat × Char)
  | [] => []
  | c :: cs => (offset, c) :: placed (offset + c.utf8Size) cs

section

variable {offset : Nat} {u v cs rest : List Char} {x : Nat × Char}

theorem placed_append :
    placed offset (u ++ v) = placed offset u ++ placed (offset + byteLength u) v := by
  induction u generalizing offset with
  | nil => rfl
  | cons c u ih =>
    rw [List.cons_append, placed, placed, ih, List.cons_append, byteLength_cons, Nat.add_assoc]

theorem mem_placed (h : x ∈ placed offset cs) : offset ≤ x.1 ∧ x.1 < offset + byteLength cs := by
  induction cs generalizing offset with
  | nil => cases h
  | cons c cs ih =>
    have hpos := c.utf8Size_pos
    rw [byteLength_cons]
    rcases List.mem_cons.mp h with rfl | h
    · dsimp only
      omega
    · obtain ⟨hle, hlt⟩ := ih h
      omega

/-- The characters from a boundary on. -/
theorem filter_placed {start : Nat} (h : suffixAt? start cs = some rest) :
    (placed 0 cs).filter (fun x => start ≤ x.1) = placed start rest := by
  obtain ⟨before, rfl, rfl⟩ := suffixAt?_eq_some_iff.mp h
  rw [placed_append, Nat.zero_add, List.filter_append, List.filter_eq_nil_iff.mpr,
    List.filter_eq_self.mpr, List.nil_append]
  · exact fun x hx => decide_eq_true (mem_placed hx).1
  · intro x hx
    have hlt := (mem_placed hx).2
    rw [Nat.zero_add] at hlt
    simpa using hlt

end

/-! ## Walks -/

/-- What is looked up for one character. -/
structure Lookup where
  offset : Nat
  char : Char
  source : Nat
  target : Option Nat

/-- What is seen when a walk has reached state `q`. -/
def arrival (a : Automaton) (q offset : Nat) : List Sighting :=
  if a.isAccepting q then [.accept q offset] else []

/-- What is seen for one character. -/
def Lookup.sightings (a : Automaton) (l : Lookup) : List Sighting :=
  .step l.offset l.char l.source l.target ::
    l.target.elim [] fun p => arrival a p (l.offset + l.char.utf8Size)

/-- Lookups for the first of the given characters, one for each, that follow the transitions from state
`q` on, up to the first character without a transition or to the last one. -/
structure Walked (a : Automaton) (q : Nat) (chars : List (Nat × Char)) (lookups : List Lookup) :
    Prop where
  examined : (lookups.map fun l => (l.offset, l.char)) <+: chars
  first : ∀ l ∈ lookups.head?, l.source = q
  chained : lookups.IsChain fun l l' => l.target = some l'.source
  target_iff : ∀ l ∈ lookups, ∀ p, l.target = some p ↔ a.Step l.source l.char.toNat p
  ends : lookups.length = chars.length ∨ ∃ l ∈ lookups.getLast?, l.target = none

section

variable {a : Automaton} {q p offset : Nat} {c : Char} {chars : List (Nat × Char)}
  {lookups : List Lookup}

theorem Walked.nil (a : Automaton) (q : Nat) : Walked a q [] [] :=
  ⟨List.prefix_rfl, nofun, .nil, nofun, .inl rfl⟩

/-- A walk stops where no transition covers the character. -/
theorem Walked.stop (h : ∀ p, ¬ a.Step q c.toNat p) :
    Walked a q ((offset, c) :: chars) [⟨offset, c, q, none⟩] where
  examined := (List.prefix_cons_inj _).mpr List.nil_prefix
  first l hl := by rw [← Option.some.inj hl]
  chained := List.isChain_singleton _
  target_iff l hl p := by
    rw [List.mem_singleton.mp hl]
    exact iff_of_false nofun (h p)
  ends := .inr ⟨_, rfl, rfl⟩

/-- A walk goes on from the state that the first lookup has reached. -/
theorem Walked.step (hstep : ∀ r, p = r ↔ a.Step q c.toNat r) (h : Walked a p chars lookups) :
    Walked a q ((offset, c) :: chars) (⟨offset, c, q, some p⟩ :: lookups) where
  examined := (List.prefix_cons_inj _).mpr h.examined
  first l hl := by rw [← Option.some.inj hl]
  chained := h.chained.cons fun l hl => by rw [h.first l hl]
  target_iff := by
    refine List.forall_mem_cons.mpr ⟨fun r => ?_, h.target_iff⟩
    rw [Option.some.injEq]
    exact hstep r
  ends := by
    rcases h.ends with hall | ⟨l, hl, hnone⟩
    · exact .inl (congrArg Nat.succ hall)
    · refine .inr ⟨l, ?_, hnone⟩
      rw [List.getLast?_cons, Option.mem_def.mp hl]
      rfl

end

namespace Matcher

variable {m : Matcher} {start stop q offset : Nat} {best : Option Nat} {cs rest : List Char}

/-- What an earlier acceptance counts for is the same whether it is kept aside or seen first. -/
theorem getLast?_or_some {x : Nat} {xs : List Nat} :
    xs.getLast?.or (some x) = (x :: xs).getLast?.or best := by
  rw [List.getLast?_cons]
  cases xs.getLast? <;> rfl

/-- **The sightings of a walk are those of its lookups**, and it returns the end of the last acceptance
among them. -/
theorem exists_lookups (hm : m.automaton.WellFormed) (q offset : Nat) (best : Option Nat)
    (cs : List Char) : ∃ lookups, Walked m.automaton q (placed offset cs) lookups ∧
      (m.longestFrom q offset best cs).events = lookups.flatMap (·.sightings m.automaton) ∧
      (m.longestFrom q offset best cs).value =
        ((m.longestFrom q offset best cs).events.filterMap Sighting.accepted?).getLast?.or best := by
  have hstep : ∀ {q c p}, m.automaton.step q c = some p ↔ m.automaton.Step q c p :=
    hm.step_eq_some_iff (hm.separated m.deterministic)
  induction cs generalizing q offset best with
  | nil => exact ⟨[], .nil _ _, rfl, rfl⟩
  | cons c cs ih =>
    rw [longestFrom, Journal.events_bind, Journal.value_bind, Journal.events_note]
    cases htarget : m.automaton.step q c.toNat with
    | none =>
      refine ⟨_, .stop fun p hp => ?_, rfl, rfl⟩
      rw [hstep.mpr hp] at htarget
      cases htarget
    | some p =>
      have hunique : ∀ r, p = r ↔ m.automaton.Step q c.toNat r := fun r => by
        rw [← hstep, htarget, Option.some.injEq]
      dsimp only
      -- both ways the walk goes on from `p`, with the new end or with the one from before
      split
      · rename_i haccept
        obtain ⟨lookups, hwalked, hevents, hvalue⟩ :=
          ih p (offset + c.utf8Size) (some (offset + c.utf8Size))
        refine ⟨_, hwalked.step hunique, ?_, hvalue.trans getLast?_or_some⟩
        rw [List.flatMap_cons, ← hevents, Lookup.sightings, Option.elim_some, arrival, if_pos haccept]
        rfl
      · rename_i haccept
        obtain ⟨lookups, hwalked, hevents, hvalue⟩ := ih p (offset + c.utf8Size) best
        refine ⟨_, hwalked.step hunique, ?_, hvalue⟩
        rw [List.flatMap_cons, ← hevents, Lookup.sightings, Option.elim_some, arrival, if_neg haccept]

/-- Without a singleton an attempt is followed by what is seen where it starts and on its walk. -/
theorem longest_lookups (hm : m.automaton.WellFormed) (hnone : m.automaton.singleton = none)
    (start : Nat) (rest : List Char) :
    ∃ lookups, Walked m.automaton m.automaton.initial (placed start rest) lookups ∧
      (m.longest start rest).events = .attempt start ::
        (arrival m.automaton m.automaton.initial start ++
          lookups.flatMap (·.sightings m.automaton)) ∧
      (m.longest start rest).value =
        ((m.longest start rest).events.filterMap Sighting.accepted?).getLast? := by
  rw [longest, Journal.events_bind, Journal.value_bind, hnone]
  dsimp only
  split
  · rename_i haccept
    obtain ⟨lookups, hwalked, hevents, hvalue⟩ :=
      exists_lookups hm m.automaton.initial start (some start) rest
    refine ⟨lookups, hwalked, ?_, hvalue.trans (getLast?_or_some.trans Option.or_none)⟩
    rw [arrival, if_pos haccept, ← hevents]
    rfl
  · rename_i haccept
    obtain ⟨lookups, hwalked, hevents, hvalue⟩ :=
      exists_lookups hm m.automaton.initial start none rest
    refine ⟨lookups, hwalked, ?_, hvalue.trans Option.or_none⟩
    rw [arrival, if_neg haccept, ← hevents]
    rfl

/-- A walk sees neither attempts nor reports. -/
theorem inner_longestFrom : ∀ e ∈ (m.longestFrom q offset best cs).events,
    e.attempted? = none ∧ e.reported? = none := by
  induction cs generalizing q offset best with
  | nil => exact List.forall_mem_nil _
  | cons c cs ih =>
    rw [longestFrom, Journal.events_bind, Journal.events_note]
    refine List.forall_mem_cons.mpr ⟨⟨rfl, rfl⟩, ?_⟩
    dsimp only
    split
    · split
      · exact List.forall_mem_cons.mpr ⟨⟨rfl, rfl⟩, ih⟩
      · exact ih
    · exact List.forall_mem_nil _

theorem longest_events (m : Matcher) (start : Nat) (rest : List Char) :
    ∃ inner, (m.longest start rest).events = .attempt start :: inner ∧
      ∀ e ∈ inner, e.attempted? = none ∧ e.reported? = none := by
  rw [longest, Journal.events_bind]
  refine ⟨_, rfl, ?_⟩
  split
  · split
    · exact List.forall_mem_cons.mpr ⟨⟨rfl, rfl⟩, List.forall_mem_nil _⟩
    · exact List.forall_mem_nil _
  · dsimp only
    split
    · exact List.forall_mem_cons.mpr ⟨⟨rfl, rfl⟩, inner_longestFrom⟩
    · exact inner_longestFrom

end Matcher

/-! ## Searches -/

/-- What is seen while a search goes from `lo` to `hi`: attempts there, in ascending order, and a report
for each match that it has returned. -/
structure Records (lo hi : Nat) (returned : List (Nat × Nat)) (events : List Sighting) : Prop where
  le : lo ≤ hi
  between : ∀ start ∈ events.filterMap Sighting.attempted?, lo ≤ start ∧ start < hi
  ascending : (events.filterMap Sighting.attempted?).Pairwise (· < ·)
  reports : events.filterMap Sighting.reported? = returned

section

variable {lo mid hi : Nat} {returned later : List (Nat × Nat)} {events events' : List Sighting}

theorem Records.attempt (h : lo < hi) : Records lo hi [] [.attempt lo] :=
  ⟨Nat.le_of_lt h, List.forall_mem_singleton.mpr ⟨Nat.le_refl _, h⟩, List.pairwise_singleton _ _, rfl⟩

theorem Records.found (offset start stop : Nat) :
    Records offset offset [(start, stop)] [.found start stop] :=
  ⟨Nat.le_refl _, nofun, .nil, rfl⟩

theorem Records.inner (h : ∀ e ∈ events, e.attempted? = none ∧ e.reported? = none) :
    Records lo lo [] events := by
  have hattempts : events.filterMap Sighting.attempted? = [] :=
    List.filterMap_eq_nil_iff.mpr fun e he => (h e he).1
  refine ⟨Nat.le_refl _, ?_, ?_, List.filterMap_eq_nil_iff.mpr fun e he => (h e he).2⟩ <;>
    rw [hattempts]
  · exact nofun
  · exact .nil

theorem Records.nil (offset : Nat) : Records offset offset [] [] :=
  .inner (List.forall_mem_nil _)

theorem Records.append (h : Records lo mid returned events) (h' : Records mid hi later events') :
    Records lo hi (returned ++ later) (events ++ events') where
  le := Nat.le_trans h.le h'.le
  between start hstart := by
    rw [List.filterMap_append, List.mem_append] at hstart
    rcases hstart with hstart | hstart
    · have := h.between start hstart
      have := h'.le
      omega
    · have := h'.between start hstart
      have := h.le
      omega
  ascending := by
    rw [List.filterMap_append, List.pairwise_append]
    refine ⟨h.ascending, h'.ascending, fun x hx y hy => ?_⟩
    exact Nat.lt_of_lt_of_le (h.between x hx).2 (h'.between y hy).1
  reports := by rw [List.filterMap_append, h.reports, h'.reports]

end

namespace Search

variable {m : Matcher} {offset stop next : Nat} {lastEnd : Option Nat} {rest : List Char}

/-- At a boundary there is one attempt, and what is found there is reported. -/
theorem records_matchHere (m : Matcher) (lastEnd : Option Nat) (rest : List Char)
    (hlt : offset < next) : Records offset next
      ((matchHere m offset lastEnd rest).value.toList.map fun stop => (offset, stop))
      (matchHere m offset lastEnd rest).events := by
  obtain ⟨inner, hevents, hinner⟩ := m.longest_events offset rest
  have hlongest : Records offset next [] (m.longest offset rest).events := by
    rw [hevents]
    exact (Records.attempt hlt).append (.inner hinner)
  rw [matchHere, Journal.value_bind, Journal.events_bind]
  cases (m.longest offset rest).value with
  | none => exact hlongest.append (.nil _)
  | some stop =>
    dsimp only
    split
    · exact hlongest.append (.nil _)
    · exact hlongest.append (.found next offset stop)

/-- A call passes boundaries until there is something to report. -/
theorem events_next (m : Matcher) (offset : Nat) (lastEnd : Option Nat) (rest : List Char) :
    ((⟨offset, some rest, lastEnd⟩ : Search).next m).events =
      (matchHere m offset lastEnd rest).events ++
        match (matchHere m offset lastEnd rest).value with
        | some _ => []
        | none => ((advance offset lastEnd rest).next m).events := by
  rw [next]
  dsimp only
  rw [nextFrom.eq_def]
  cases rest <;> dsimp only <;> rw [Journal.events_bind] <;>
    cases (matchHere m offset lastEnd _).value <;> rfl

theorem records_next (m : Matcher) (s : Search) :
    Records s.offset (s.next m).value.2.offset (s.next m).value.1.toList (s.next m).events := by
  obtain ⟨n, hn⟩ : ∃ n, s.remaining ≤ n := ⟨_, Nat.le_refl _⟩
  induction n generalizing s with
  | zero =>
    obtain ⟨offset, _ | rest, lastEnd⟩ := s
    · exact .nil _
    · exact absurd hn (Nat.not_succ_le_zero _)
  | succ n ih =>
    obtain ⟨offset, _ | rest, lastEnd⟩ := s
    · exact .nil _
    · have hhere : ∀ {next}, offset < next → Records offset next _ _ := records_matchHere m lastEnd rest
      rw [value_next, events_next]
      cases hvalue : (matchHere m offset lastEnd rest).value with
      | none =>
        rw [hvalue] at hhere
        exact (hhere (lt_offset_advance offset lastEnd rest)).append
          (ih _ (remaining_advance.trans_le (Nat.le_of_succ_le_succ hn)))
      | some stop =>
        rw [hvalue] at hhere
        exact (hhere (lt_offset_resume hvalue)).append (.nil _)

/-- What a number of calls return, with all that is seen on the way. -/
def calls (m : Matcher) : Nat → Search → Journal Sighting (List (Nat × Nat))
  | 0, _ => return []
  | n + 1, s => do
    let answer ← s.next m
    let later ← calls m n answer.2
    return answer.1.toList ++ later

theorem records_calls (m : Matcher) (n : Nat) (s : Search) :
    Records s.offset (after m n s).offset (calls m n s).value (calls m n s).events := by
  induction n generalizing s with
  | zero => exact .nil _
  | succ n ih =>
    have hcalls : (calls m (n + 1) s).events =
        (s.next m).events ++ (calls m n (s.next m).value.2).events :=
      congrArg ((s.next m).events ++ ·) (List.append_nil _)
    rw [hcalls]
    exact (records_next m s).append (ih _)

end Search

namespace Matcher

/-- **Traces tell the truth.** What is seen of a longest match at a position is one attempt there, the
acceptance of the initial state if it accepts, and then what is seen for each character of the text from
there on, up to the first one without a transition; the match ends at the last acceptance. What is seen in
any number of calls of a search has a report for each match that they have returned, in this order, and
attempts at ascending offsets. -/
theorem traces_exact (m : Matcher) (text : String) :
    (m.automaton.WellFormed → m.automaton.singleton = none → ∀ start : text.Pos,
      ∃ lookups, Walked m.automaton m.automaton.initial
          ((placed 0 text.toList).filter fun x => start.offset.byteIdx ≤ x.1) lookups ∧
        (m.longestAt text start.offset.byteIdx).events = .attempt start.offset.byteIdx ::
          (arrival m.automaton m.automaton.initial start.offset.byteIdx ++
            lookups.flatMap (·.sightings m.automaton)) ∧
        (m.longestAt text start.offset.byteIdx).value =
          ((m.longestAt text start.offset.byteIdx).events.filterMap Sighting.accepted?).getLast?) ∧
    ∀ n, ((Search.calls m n (Search.start text)).events.filterMap Sighting.reported? =
        (Search.calls m n (Search.start text)).value) ∧
      ((Search.calls m n (Search.start text)).events.filterMap Sighting.attempted?).Pairwise (· < ·) := by
  refine ⟨fun hm hnone start => ?_, fun n => ?_⟩
  · obtain ⟨rest, hrest⟩ := isValid_iff_suffixAt?.mp start.isValid
    rw [filter_placed hrest, longestAt, hrest]
    exact longest_lookups hm hnone _ _
  · have hrecords := Search.records_calls m n (Search.start text)
    exact ⟨hrecords.reports, hrecords.ascending⟩

/-- From 1 on nothing but the empty text is accepted; four calls return three matches. -/
theorem traces_accented : accented.automaton.WellFormed ∧ accented.automaton.singleton = none ∧
    (∃ lookups, Walked accented.automaton 0 [(1, 'é'), (3, 'b'), (4, 'é'), (6, 'a')] lookups ∧
      (accented.longestAt "aébéa" 1).events = .attempt 1 :: .accept 0 1 ::
        lookups.flatMap (·.sightings accented.automaton) ∧
      (accented.longestAt "aébéa" 1).value = some 1) ∧
    (Search.calls accented 4 (Search.start "aébéa")).events.filterMap Sighting.reported? =
      [(0, 1), (3, 3), (4, 7)] := by
  have hm : accented.automaton.WellFormed := Automaton.wellFormed_ofStates (by decide)
  have hstart : String.Pos.Raw.IsValid "aébéa" ⟨1⟩ :=
    isValid_iff_suffixAt?.mpr ⟨['é', 'b', 'é', 'a'], by decide⟩
  obtain ⟨hlongest, hcalls⟩ := accented.traces_exact "aébéa"
  obtain ⟨lookups, hwalked, hevents, -⟩ := hlongest hm rfl ⟨⟨1⟩, hstart⟩
  exact ⟨hm, rfl, ⟨lookups, hwalked, hevents, by decide⟩, (hcalls 4).1.trans (by decide)⟩

end Matcher

end IntervalAutomata
