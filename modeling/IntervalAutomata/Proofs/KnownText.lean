import IntervalAutomata.Proofs.Marks
import IntervalAutomata.Proofs.MatchSearch
import IntervalAutomata.Proofs.ShortestExample

/-! # Known texts

Where the text of a singleton is known it is compared or returned and no transition is looked at. What
a matcher answers is fixed by the language alone: there is at most one longest accepted text at a
place (`Longest.unique`), and a search only ever asks for those. Runs, the test for the empty text and
the example are settled by the language of a singleton as well. So forgetting the text changes nothing
but the way in which the answers are found. -/

namespace IntervalAutomata

theorem Longest.unique {l : Language Char} {offset : Nat} {rest : List Char}
    {best r r' : Option Nat} (h : Longest l offset rest best r) (h' : Longest l offset rest best r') :
    r = r' := by
  cases h with
  | found hpre hmem hmax =>
    cases h' with
    | found hpre' hmem' hmax' =>
      have := hmax _ hpre' hmem'
      have := hmax' _ hpre hmem
      congr 2
      omega
    | missing hnone => exact absurd hmem (hnone _ hpre)
  | missing hnone =>
    cases h' with
    | found hpre' hmem' => exact absurd hmem' (hnone _ hpre')
    | missing => rfl

/-! ## Matchers of one language -/

/-- At every place both matchers find the same longest match. -/
def Matcher.Alike (m n : Matcher) : Prop :=
  ∀ start rest, (m.longest start rest).value = (n.longest start rest).value

namespace Matcher

variable {m n : Matcher}

theorem alike_of_language_eq (hm : m.automaton.WellFormed) (hn : n.automaton.WellFormed)
    (h : m.automaton.language = n.automaton.language) : m.Alike n := by
  intro start rest
  have htexts : Algebra.texts n.automaton = Algebra.texts m.automaton := by
    rw [Algebra.texts_eq hm, Algebra.texts_eq hn, h]
  exact (longest_longest hm start rest).unique (htexts ▸ longest_longest hn start rest)

theorem Alike.value_longestAt (h : m.Alike n) (text : String) (start : Nat) :
    (m.longestAt text start).value = (n.longestAt text start).value := by
  unfold longestAt
  split
  · exact h _ _
  · rfl

theorem Alike.value_next (h : m.Alike n) (s : Search) : (s.next m).value = (s.next n).value := by
  obtain ⟨offset, _ | rest, lastEnd⟩ := s
  · rfl
  · induction rest generalizing offset with
    | nil =>
      rw [Search.value_next, Search.value_next, Search.value_matchHere, Search.value_matchHere, h]
      rfl
    | cons c rest ih =>
      rw [Search.value_next, Search.value_next, Search.value_matchHere, Search.value_matchHere, h]
      dsimp only [Search.advance]
      rw [ih]

/-- The searches stand at the same place after any number of calls. -/
theorem Alike.after (h : m.Alike n) (calls : Nat) (s : Search) :
    Search.after m calls s = Search.after n calls s := by
  induction calls generalizing s with
  | zero => rfl
  | succ calls ih => rw [Search.after, Search.after, h.value_next, ih]

theorem Alike.collect (h : m.Alike n) (fuel : Nat) (s : Search) :
    Search.collect m fuel s = Search.collect n fuel s := by
  induction fuel generalizing s with
  | zero => rfl
  | succ fuel ih =>
    rw [Search.collect, Search.collect, h.value_next]
    cases (s.next n).value with
    | mk first s' => cases first <;> simp only [ih]

theorem Alike.findAll (h : m.Alike n) (text : String) : m.findAll text = n.findAll text :=
  h.collect _ _

end Matcher

/-! ## Forgetting a known text -/

namespace Automaton

variable {a b : Automaton}

theorem WellFormed.run_congr (ha : a.WellFormed) (hb : b.WellFormed) (h : a.language = b.language)
    (text : String) : a.run text = b.run text := by
  rw [Bool.eq_iff_iff, ha.run_iff, hb.run_iff, h]

theorem language_setSingleton (text : Option String) : (a.setSingleton text).language = a.language :=
  language_congr rfl rfl

theorem WellFormed.unknown (ha : a.WellFormed) : (a.setSingleton none).WellFormed :=
  ha.congr rfl rfl rfl nofun

theorem WellFormed.shortestExample_unknown (ha : a.WellFormed) :
    (a.setSingleton none).shortestExample = a.shortestExample := by
  cases hs : a.singleton with
  | none => rw [setSingleton, ← hs]
  | some s =>
    have hrun : (a.setSingleton none).run s = true := by
      rw [ha.unknown.run_iff, language_setSingleton, ha.known s hs]
      rfl
    have hsome : (a.setSingleton none).shortestExample ≠ none := by
      rw [Ne, ha.unknown.shortestExample_eq_none_iff]
      intro hnone
      rw [hnone s] at hrun
      cases hrun
    obtain ⟨text, htext⟩ := Option.ne_none_iff_exists'.mp hsome
    -- the text that is found is accepted, and only the known one is
    have hword := (ha.unknown.run_iff text).mp (ha.unknown.run_shortestExample htext)
    rw [language_setSingleton, ha.known s hs] at hword
    rw [htext, symbols_injective hword, shortestExample, hs]

/-- **Whether the text is known makes no difference to any answer**: a matcher accepts the same texts,
finds the same longest match at every offset and the same matches call by call, and the run, the test for
the empty text and the example agree too. -/
theorem WellFormed.unknown_agrees (ha : a.WellFormed) :
    (∀ hd : a.deterministic = true, ∀ text,
      let m : Matcher := ⟨a, hd⟩
      let n : Matcher := ⟨a.setSingleton none, hd⟩
      (m.accepts text).value = (n.accepts text).value ∧
      (∀ start, (m.longestAt text start).value = (n.longestAt text start).value) ∧
      m.findAll text = n.findAll text ∧
      ∀ calls, ((Search.after m calls (Search.start text)).next m).value =
        ((Search.after n calls (Search.start text)).next n).value) ∧
    (∀ text, a.run text = (a.setSingleton none).run text) ∧
    a.isEmptyString = (a.setSingleton none).isEmptyString ∧
    a.shortestExample = (a.setSingleton none).shortestExample := by
  have hlanguage : a.language = (a.setSingleton none).language := (language_setSingleton none).symm
  have hrun := ha.run_congr ha.unknown hlanguage
  refine ⟨fun hd text => ?_, hrun, ?_, ha.shortestExample_unknown.symm⟩
  · intro m n
    have halike : m.Alike n := Matcher.alike_of_language_eq ha ha.unknown hlanguage
    refine ⟨?_, halike.value_longestAt text, halike.findAll text, fun calls => ?_⟩
    · rw [Matcher.value_accepts, Matcher.value_accepts]
      exact hrun text
    · rw [halike.after, halike.value_next]
  · rw [Bool.eq_iff_iff, ha.isEmptyString_iff, ha.unknown.isEmptyString_iff, hlanguage]

/-- The text `é` beside a branch that loops and never accepts. -/
def knownAccent : Automaton :=
  .setSingleton
    (ofStates [⟨false, [⟨⟨97, 122⟩, 2⟩, ⟨⟨233, 233⟩, 1⟩]⟩, ⟨true, []⟩, ⟨false, [⟨⟨97, 122⟩, 2⟩]⟩] 0)
    (some "é")

theorem wellFormed_knownAccent : knownAccent.WellFormed := by
  have hvalid : (ofStates [⟨false, [⟨⟨97, 122⟩, 2⟩, ⟨⟨233, 233⟩, 1⟩]⟩, ⟨true, []⟩,
      ⟨false, [⟨⟨97, 122⟩, 2⟩]⟩] 0).Valid := by decide
  refine (wellFormed_ofStates hvalid).congr rfl rfl rfl fun text ht => ?_
  obtain rfl : "é" = text := Option.some.inj ht
  exact (Binary.denotesOnly_iff hvalid "é").mp (by decide +kernel)

/-- Without the text the transitions lead to the same answers, also inside a character. -/
theorem unknown_agrees_knownAccent :
    let unknown : Matcher := ⟨knownAccent.setSingleton none, rfl⟩
    knownAccent.WellFormed ∧ unknown.findAll "aéé" = [(1, 3), (3, 5)] ∧
    (unknown.longestAt "aéé" 2).value = none ∧ (unknown.accepts "é").value = true ∧
    (knownAccent.setSingleton none).shortestExample = some "é" := by
  intro unknown
  obtain ⟨hmatcher, -, -, hexample⟩ := wellFormed_knownAccent.unknown_agrees
  obtain ⟨-, hlongest, hfound, -⟩ := hmatcher rfl "aéé"
  obtain ⟨haccepts, -⟩ := hmatcher rfl "é"
  exact ⟨wellFormed_knownAccent, hfound.symm.trans (by decide), (hlongest 2).symm.trans rfl,
    haccepts.symm.trans rfl, hexample.symm⟩

end Automaton

end IntervalAutomata
