import IntervalAutomata.Proofs.Minimization
import IntervalAutomata.Proofs.Reduce

/-! # The minimal form

Minimization returns an automaton that is marked minimal as it is, so the form of its result depends on
where such marks come from. Basic acceptors carry them from the start, minimization puts them, and
reducing or annotating an automaton carries them over (`Stamped`). Each of these automata is canonical;
hence minimization gives equal languages equal states, whatever the automata looked like. -/

namespace IntervalAutomata.Automaton

/-- Where the minimal mark comes from. Characters and ranges of characters are intervals. -/
inductive Stamped : Automaton → Prop
  | empty : Stamped .empty
  | emptyString : Stamped .emptyString
  | string (text : String) : Stamped (.string text)
  | interval {i : Interval} : i.Proper → Stamped (.interval i)
  | anyString : Stamped .anyString
  | minimized {a m : Automaton} {limits : Limits} : a.WellFormed → (a.minimal = true → Stamped a) →
      (a.minimizeWith limits).outcome = .ok m → Stamped m
  | reduced {a : Automaton} : Stamped a → Stamped a.reduce
  | annotated {a : Automaton} (text : Option String) : Stamped a → Stamped (a.setSingleton text)

variable {a b : Automaton}

/-- Whatever is marked minimal is canonical. -/
theorem Stamped.canonical (h : Stamped a) :
    a.Canonical ∧ a.deterministic = true ∧ a.minimal = true := by
  induction h with
  | empty => exact ⟨canonical_empty, rfl, rfl⟩
  | emptyString => exact ⟨canonical_emptyString, rfl, rfl⟩
  | string text => exact ⟨canonical_string text, rfl, rfl⟩
  | interval hi => exact ⟨canonical_interval hi, rfl, rfl⟩
  | anyString => exact ⟨canonical_anyString, rfl, rfl⟩
  | minimized ha _ hok ih =>
    rcases ha.minimizeWith_eq_ok hok with ⟨hmark, rfl⟩ | ⟨-, hcanonical, -, hdet, hmark, -⟩
    · exact ih hmark
    · exact ⟨hcanonical, hdet, hmark⟩
  | reduced _ ih =>
    obtain ⟨hcanonical, -, hmark⟩ := ih
    refine ⟨hcanonical.reduce.1, hcanonical.reduce.2, ?_⟩
    rw [hcanonical.toValid.reduce_eq]
    exact hmark
  | annotated text _ ih =>
    obtain ⟨hcanonical, hdet, hmark⟩ := ih
    exact ⟨hcanonical.congr rfl rfl, hdet, hmark⟩

/-- Well-formed, and marked minimal only in canonical form. -/
structure Truthful (a : Automaton) : Prop extends WellFormed a where
  canonical : a.minimal = true → a.Canonical

theorem WellFormed.truthful (ha : a.WellFormed) (h : a.minimal = false) : Truthful a :=
  ⟨ha, fun hmark => absurd hmark (by rw [h]; exact Bool.false_ne_true)⟩

theorem truthful_string (text : String) : Truthful (string text) :=
  ⟨wellFormed_string text, fun _ => canonical_string text⟩

/-- Minimization ends in the canonical automaton for the language. -/
theorem Truthful.canonical_minimize (ha : Truthful a) :
    a.minimize.value.Canonical ∧ a.minimize.value.deterministic = true ∧
      a.minimize.value.minimal = true ∧ a.minimize.value.language = a.language := by
  obtain ⟨hmark, heq⟩ | ⟨-, hcanonical, -, hdet, hminimal, hlanguage⟩ :=
    ha.minimizeWith_eq_ok (outcome_minimize a)
  · have hcanonical := ha.canonical hmark
    rw [heq]
    exact ⟨hcanonical, ha.deterministic_iff.mpr hcanonical.separated, hmark, rfl⟩
  · exact ⟨hcanonical, hdet, hminimal, hlanguage⟩

theorem WellFormed.canonical_minimize (ha : a.WellFormed) (hmark : a.minimal = true → Stamped a) :
    a.minimize.value.Canonical ∧ a.minimize.value.deterministic = true ∧
      a.minimize.value.minimal = true ∧ a.minimize.value.language = a.language :=
  Truthful.canonical_minimize ⟨ha, fun h => (hmark h).canonical.1⟩

/-- **The minimal form is canonical.** Automata that accept the same words have minimal forms with the
same states, initial state and marks. -/
theorem WellFormed.minimize_eq_of_same_language (ha : a.WellFormed) (hb : b.WellFormed)
    (hmark : a.minimal = true → Stamped a) (hmark' : b.minimal = true → Stamped b)
    (h : ∀ w, a.runSymbols w = b.runSymbols w) :
    let m := a.minimize.value
    let n := b.minimize.value
    m.states = n.states ∧ m.initial = 0 ∧ n.initial = 0 ∧ m.deterministic = n.deterministic ∧
      m.minimal = n.minimal := by
  obtain ⟨hm, hdet, hminimal, hlanguage⟩ := ha.canonical_minimize hmark
  obtain ⟨hn, hdet', hminimal', hlanguage'⟩ := hb.canonical_minimize hmark'
  have hsame : a.language = b.language := by
    ext w
    rw [← ha.runSymbols_iff, ← hb.runSymbols_iff, h]
  refine ⟨hm.states_eq hn ?_, hm.initial_eq, hn.initial_eq, hdet.trans hdet'.symm,
    hminimal.trans hminimal'.symm⟩
  rw [hlanguage, hlanguage', hsame]

/-- An interval in two overlapping pieces, with a state that leads nowhere. -/
def splitInterval : Automaton :=
  .ofStates [⟨true, []⟩, ⟨false, [⟨⟨97, 99⟩, 0⟩, ⟨⟨98, 100⟩, 0⟩, ⟨⟨98, 100⟩, 2⟩]⟩, ⟨false, []⟩] 1

theorem mem_language_splitInterval {w : List Nat} :
    w ∈ splitInterval.language ↔ ∃ c, (⟨97, 100⟩ : Interval).contains c = true ∧ w = [c] := by
  have hend : ∀ {w : List Nat}, w ∈ splitInterval.residual 0 ↔ w = [] := by
    intro w
    cases w with
    | nil => exact iff_of_true (nil_mem_residual.mpr rfl) rfl
    | cons c w =>
      refine iff_of_false (fun hw => ?_) (List.cons_ne_nil c w)
      obtain ⟨_, ⟨t, ht, -⟩, -⟩ := cons_mem_residual.mp hw
      cases ht
  have hdead : ∀ {w : List Nat}, w ∉ splitInterval.residual 2 := by
    intro w hw
    cases w with
    | nil => cases nil_mem_residual.mp hw
    | cons c w =>
      obtain ⟨_, ⟨t, ht, -⟩, -⟩ := cons_mem_residual.mp hw
      cases ht
  have htransitions : splitInterval.transitions 1 =
      [⟨⟨97, 99⟩, 0⟩, ⟨⟨98, 100⟩, 0⟩, ⟨⟨98, 100⟩, 2⟩] := rfl
  show w ∈ splitInterval.residual 1 ↔ _
  cases w with
  | nil => simp [isAccepting, state, splitInterval, ofStates]
  | cons c w =>
    simp only [cons_mem_residual, Step, htransitions, List.mem_cons, List.not_mem_nil, or_false,
      exists_eq_or_imp, exists_eq_left, Interval.contains_iff]
    constructor
    · rintro ⟨q, ⟨hc, rfl⟩ | ⟨hc, rfl⟩ | ⟨-, rfl⟩, hw⟩
      · exact ⟨c, by omega, by rw [hend.mp hw]⟩
      · exact ⟨c, by omega, by rw [hend.mp hw]⟩
      · exact absurd hw hdead
    · intro h
      obtain ⟨d, hd, hw⟩ := h
      obtain ⟨rfl, rfl⟩ := List.cons.inj hw
      refine ⟨0, ?_, hend.mpr rfl⟩
      by_cases hlow : c ≤ 99
      · exact .inl ⟨⟨hd.1, hlow⟩, rfl⟩
      · exact .inr (.inl ⟨by omega, rfl⟩)

theorem minimize_splitInterval :
    splitInterval.WellFormed ∧ (interval ⟨97, 100⟩).WellFormed ∧
      (splitInterval.minimal = true → Stamped splitInterval) ∧ Stamped (interval ⟨97, 100⟩) ∧
      (∀ w, splitInterval.runSymbols w = (interval ⟨97, 100⟩).runSymbols w) ∧
      splitInterval.minimize.value.states = (interval ⟨97, 100⟩).minimize.value.states := by
  have hproper : (⟨97, 100⟩ : Interval).Proper := by decide
  have hsplit : splitInterval.WellFormed := wellFormed_ofStates (by decide)
  have hwhole := wellFormed_interval hproper
  have hsame : ∀ w, splitInterval.runSymbols w = (interval ⟨97, 100⟩).runSymbols w := by
    intro w
    rw [Bool.eq_iff_iff, hsplit.runSymbols_iff, hwhole.runSymbols_iff, mem_language_splitInterval,
      mem_language_interval]
  exact ⟨hsplit, hwhole, nofun, .interval hproper, hsame,
    (hsplit.minimize_eq_of_same_language hwhole nofun (fun _ => .interval hproper) hsame).1⟩

/-! ## The known singleton

Minimization does not look for the one text of the language: its result knows that text if the automaton
it started from does. So the states are canonical, but the automata that carry them come in two
versions where a language has one text only. -/

theorem WellFormed.singleton_eq_none (ha : a.WellFormed) (hdead : ¬ a.Live a.initial) :
    a.singleton = none := by
  by_contra hsome
  obtain ⟨text, ht⟩ := Option.ne_none_iff_exists'.mp hsome
  exact hdead ⟨symbols text, show symbols text ∈ a.language from ha.known text ht ▸ rfl⟩

/-- The known singleton is carried over. -/
theorem WellFormed.singleton_minimizeWith (ha : a.WellFormed) {limits : Limits} {m : Automaton}
    (h : (a.minimizeWith limits).outcome = .ok m) : m.singleton = a.singleton := by
  unfold minimizeWith at h
  split at h
  · rw [Build.outcome_pure_eq_ok.mp h]
  obtain ⟨dfa, hdfa, h⟩ := Build.outcome_bind_eq_ok.mp h
  obtain ⟨hwell, -, hlanguage⟩ := ha.determinizeWith hdfa
  dsimp only at h
  split at h
  · rename_i hnone
    have hdead := (accepting_isEmpty_trim hwell.toValid).mp hnone
    rw [not_live_initial_iff, hlanguage, ← not_live_initial_iff] at hdead
    rw [← Build.outcome_pure_eq_ok.mp h, ha.singleton_eq_none hdead]
    rfl
  · rw [← Build.outcome_reported.mp h, setSingleton]

/-- **Minimal forms are equal when the languages are and both or neither know the one text.** -/
theorem Truthful.minimize_eq_iff (ha : Truthful a) (hb : Truthful b) :
    a.minimize.value = b.minimize.value ↔ a.language = b.language ∧ a.singleton = b.singleton := by
  obtain ⟨hm, hdet, hminimal, hlanguage⟩ := ha.canonical_minimize
  obtain ⟨hn, hdet', hminimal', hlanguage'⟩ := hb.canonical_minimize
  have hsingleton := ha.toWellFormed.singleton_minimizeWith (outcome_minimize a)
  have hsingleton' := hb.toWellFormed.singleton_minimizeWith (outcome_minimize b)
  rw [← hlanguage, ← hlanguage', ← hsingleton, ← hsingleton']
  constructor
  · intro h
    exact ⟨congrArg language h, congrArg singleton h⟩
  · intro ⟨hsame, hknown⟩
    have hstates := hm.states_eq hn hsame
    have hinitial := hm.initial_eq.trans hn.initial_eq.symm
    generalize a.minimize.value = m at *
    generalize b.minimize.value = n at *
    cases m
    cases n
    rw [mk.injEq]
    exact ⟨hstates, hinitial, hdet.trans hdet'.symm, hminimal.trans hminimal'.symm, hknown⟩

/-- The automaton for the text `a`, put together by hand. -/
def handBuilt : Automaton := (new.addState true).addTransition 0 (.single 97) 1

theorem wellFormed_handBuilt : handBuilt.WellFormed :=
  (wellFormed_string "a").congr (by decide) rfl (by decide) nofun

theorem language_handBuilt : handBuilt.language = (string "a").language :=
  language_congr (by decide) rfl

theorem minimize_handBuilt_ne : Truthful handBuilt ∧ Truthful (string "a") ∧
    handBuilt.minimize.value ≠ (string "a").minimize.value := by
  have htruthful := wellFormed_handBuilt.truthful rfl
  refine ⟨htruthful, truthful_string "a", fun h => ?_⟩
  exact absurd ((htruthful.minimize_eq_iff (truthful_string "a")).mp h).2 (by decide)

/-- The two accept the same, but only the minimal form of one of them knows it. -/
theorem singleton_minimize_handBuilt : Truthful handBuilt ∧ Truthful (string "a") ∧
    handBuilt.language = (string "a").language ∧
    handBuilt.minimize.value.singleton = none ∧
    (string "a").minimize.value.singleton = some "a" :=
  ⟨wellFormed_handBuilt.truthful rfl, truthful_string "a", language_handBuilt,
    wellFormed_handBuilt.singleton_minimizeWith (outcome_minimize _),
    (wellFormed_string "a").singleton_minimizeWith (outcome_minimize _)⟩

end IntervalAutomata.Automaton
