import IntervalAutomata.Compile
import IntervalAutomata.Proofs.Complement
import IntervalAutomata.Proofs.Flatten
import IntervalAutomata.Proofs.Minimization
import IntervalAutomata.Proofs.Product
import IntervalAutomata.Proofs.Unrolling

/-! # Compilation is exact

Building a fragment for a pattern adds nodes to the graph and changes none, and the new nodes realize
the words of the pattern; by induction on the pattern, each combinator does for fragments what the
denotation does for words. Finishing flattens the fragment, records the word that the pattern shows and
minimizes on request, none of which changes the language. -/

namespace IntervalAutomata

/-- Minimization keeps the language, marked or not. -/
theorem Automaton.WellFormed.minimizeWith_exact {limits : Limits} {a m : Automaton}
    (ha : a.WellFormed) (h : (a.minimizeWith limits).outcome = .ok m) :
    m.WellFormed ∧ m.language = a.language := by
  obtain ⟨-, rfl⟩ | ⟨-, -, hwell, -, -, hlanguage⟩ := ha.minimizeWith_eq_ok h
  · exact ⟨ha, rfl⟩
  · exact ⟨hwell, hlanguage⟩

namespace Compiler

open IntervalAutomata.Graph

variable {limits : Limits} {minimize : Bool} {p : Pattern} {g : Graph} {f : Fragment}
variable {region : Set Nat} {a : Automaton} {built : Fragment × Graph}

/-- Recording the word that a pattern shows is truthful. -/
theorem record_exact (ha : a.WellFormed) (hlanguage : a.language = p.words) :
    let known := match p.word? with
      | some word => a.setSingleton (some (String.ofList word))
      | none => a
    known.WellFormed ∧ known.language = p.words := by
  cases hword : p.word? with
  | none => exact ⟨ha, hlanguage⟩
  | some word =>
    have hsymbols : symbols (String.ofList word) = word.map Char.toNat := by
      rw [symbols, String.toList_ofList]
    refine ⟨ha.congr rfl rfl rfl fun text ht => ?_, hlanguage ▸ Automaton.language_congr rfl rfl⟩
    rw [← Option.some.inj ht, hlanguage, hsymbols, Pattern.words_of_word? hword]

/-- A flattened fragment with the word that the pattern shows is all that finishing returns or
minimizes, and no larger than the ceiling. -/
theorem finish_cases (hf : g.Realizes Interval.Proper region f p.words)
    (h : (finish limits minimize p f g).outcome = .ok a) :
    ∃ known : Automaton, known.WellFormed ∧ known.language = p.words ∧ known.minimal = false ∧
      (∀ n, limits.maxStates = some n → known.size ≤ n) ∧
      (a = known ∨ (known.minimizeWith limits).outcome = .ok a) := by
  unfold finish at h
  obtain ⟨flat, hflat, h⟩ := Build.outcome_bind_eq_ok.mp h
  obtain ⟨_, hcheck, h⟩ := Build.outcome_bind_eq_ok.mp h
  rw [Build.outcome_lift] at hflat
  obtain rfl := Except.ok.inj hflat
  obtain ⟨hwell, hlanguage⟩ := hf.toAutomaton
  obtain ⟨hknown, hlanguage⟩ := record_exact hwell hlanguage
  refine ⟨_, hknown, hlanguage, ?_, fun n hn => ?_, ?_⟩
  · split <;> exact (g.plain_toAutomaton f).minimal_eq
  · have hsize := Limits.checkStates_eq_ok hn hcheck
    split <;> exact hsize
  dsimp only at h
  split at h
  · obtain ⟨m, hm, h⟩ := Build.outcome_bind_eq_ok.mp h
    obtain rfl := Build.outcome_reported.mp h
    exact .inr hm
  · obtain ⟨_, hm, h⟩ := Build.outcome_bind_eq_ok.mp h
    obtain ⟨_, -, h⟩ := Build.outcome_bind_eq_ok.mp h
    rw [Build.outcome_pure] at h hm
    obtain rfl := Except.ok.inj h
    exact .inl (Except.ok.inj hm).symm

/-- Finishing a fragment keeps its language. -/
theorem finish_exact (hf : g.Realizes Interval.Proper region f p.words)
    (h : (finish limits minimize p f g).outcome = .ok a) :
    a.WellFormed ∧ a.language = p.words := by
  obtain ⟨known, hknown, hlanguage, -, -, rfl | hm⟩ := finish_cases hf h
  · exact ⟨hknown, hlanguage⟩
  · obtain ⟨hwell, hsame⟩ := hknown.minimizeWith_exact hm
    exact ⟨hwell, hsame.trans hlanguage⟩

/-! ## Fragments of patterns -/

theorem builds_char (g : Graph) (value : Char) :
    g.Builds Interval.Proper ∅ (g.interval (.single value.toNat)) (Pattern.char value).words := by
  have h := builds_interval g (Automaton.proper_single value)
  simp only [Automaton.contains_single, exists_eq_left] at h
  exact h

theorem builds_range (g : Graph) (start stop : Char) :
    g.Builds Interval.Proper ∅ (match Interval.ofChars? start stop with
      | some i => g.interval i
      | none => g.empty) (Pattern.range start stop).words := by
  by_cases hle : start ≤ stop
  · rw [Interval.ofChars?, if_pos hle]
    have hproper : Interval.Proper ⟨start.toNat, stop.toNat⟩ := ⟨hle, toNat_le_maxSymbol stop⟩
    have h := builds_interval g hproper
    simp only [Interval.contains_iff, and_assoc] at h
    exact h
  · rw [Interval.ofChars?, if_neg hle]
    have hnone : (Pattern.range start stop).words = 0 := by
      ext w
      refine iff_of_false ?_ (Language.notMem_zero w)
      rintro ⟨c, hstart, hstop, -⟩
      exact hle (Nat.le_trans hstart hstop)
    exact hnone ▸ builds_empty g

theorem builds_anyChar (g : Graph) :
    g.Builds Interval.Proper ∅ (g.interval .full) Pattern.anyChar.words := by
  have hproper : Interval.full.Proper := ⟨Nat.zero_le _, Nat.le_refl _⟩
  have h := builds_interval g hproper
  simp only [Interval.contains_iff] at h
  have hzero : ∀ c : Nat, Interval.full.min ≤ c := fun c => Nat.zero_le c
  simp only [hzero, true_and] at h
  exact h

theorem bounds_of_repeated {inner : Pattern} {min : Nat} {max : Option Nat}
    (h : (inner.repeated min max).invertedBounds? = none) :
    inner.invertedBounds? = none ∧ ∀ m, max = some m → min ≤ m := by
  cases max with
  | none => exact ⟨h, nofun⟩
  | some max =>
    unfold Pattern.invertedBounds? at h
    split at h
    · cases h
    · rename_i hle
      exact ⟨h, fun m hm => Option.some.inj hm ▸ Nat.le_of_not_lt hle⟩

/-- Two fragments that are built one after the other stand beside each other. -/
theorem pair_realizes {f k : Fragment} {g₁ g₂ : Graph} {l l' : Language Symbol}
    (hf : g.Builds Interval.Proper ∅ (f, g₁) l)
    (hk : g₁.Builds Interval.Proper ∅ (k, g₂) l') :
    Rewired ∅ g g₂ ∧ g₂.Realizes Interval.Proper (Set.Ico g.size g₁.size) f l ∧
      g₂.Realizes Interval.Proper (Set.Ico g₁.size g₂.size) k l' ∧
      Set.Ico g.size g₁.size ∪ Set.Ico g₁.size g₂.size = ∅ ∪ Set.Ico g.size g₂.size := by
  have hleft := hf.realizes.rewired hk.toRewired (Set.disjoint_empty _)
  have hright := hk.realizes
  rw [Set.empty_union] at hleft hright
  refine ⟨(hf.toRewired.trans hk.toRewired).mono (by simp), hleft, hright, ?_⟩
  rw [Set.empty_union]
  exact Set.Ico_union_Ico_eq_Ico hf.size_le hk.size_le

/-- A compilation that succeeds has passed the checks and finished what was lowered. -/
theorem compile_eq_ok {c : Compiler} (h : (c.compile p).outcome = .ok a) :
    p.invertedBounds? = none ∧ ∃ f g, (lower c.limits {} p).outcome = .ok (f, g) ∧
      (finish c.limits c.minimize p f g).outcome = .ok a := by
  unfold compile compileLowered at h
  obtain ⟨_, -, h⟩ := Build.outcome_bind_eq_ok.mp h
  split at h
  · obtain ⟨_, hthrow, -⟩ := Build.outcome_bind_eq_ok.mp h
    cases hthrow
  · rename_i hnone
    obtain ⟨⟨f, g⟩, hlower, h⟩ := Build.outcome_bind_eq_ok.mp h
    exact ⟨Option.eq_none_iff_forall_ne_some.mpr fun b => hnone b.1 b.2, f, g, hlower, h⟩

/-- Operands are compiled from the start, by a compiler that minimizes. -/
theorem lower_complement (limits : Limits) (g : Graph) (inner : Pattern) :
    lower limits g inner.complement = (do
      let a ← compile ⟨limits, true⟩ inner
      return g.embed (← a.complement)) := rfl

theorem lower_intersection (limits : Limits) (g : Graph) (left right : Pattern) :
    lower limits g (left.intersection right) = (do
      let a ← compile ⟨limits, true⟩ left
      let b ← compile ⟨limits, true⟩ right
      return g.embed (← a.intersectionInStep limits b)) := rfl

/-- **The new nodes realize the words of the pattern.** -/
theorem lower_builds (hp : p.invertedBounds? = none)
    (h : (lower limits g p).outcome = .ok built) : g.Builds Interval.Proper ∅ built p.words := by
  induction p generalizing g built with
  | char value =>
    obtain rfl := Build.outcome_pure_eq_ok.mp h
    exact builds_char g value
  | range start stop =>
    obtain rfl := Build.outcome_pure_eq_ok.mp h
    exact builds_range g start stop
  | alternation left right ihl ihr =>
    unfold lower at h
    obtain ⟨⟨f, g₁⟩, hf, h⟩ := Build.outcome_bind_eq_ok.mp h
    obtain ⟨⟨k, g₂⟩, hk, h⟩ := Build.outcome_bind_eq_ok.mp h
    obtain rfl := Build.outcome_pure_eq_ok.mp h
    obtain ⟨hpl, hpr⟩ := Option.or_eq_none_iff.mp hp
    obtain ⟨hwired, hleft, hright, hregion⟩ := pair_realizes (ihl hpl hf) (ihr hpr hk)
    have hbuilt := hleft.alternation hright Set.Ico_disjoint_Ico_same
    rw [hregion] at hbuilt
    exact hwired.builds hbuilt
  | concatenation left right ihl ihr =>
    unfold lower at h
    obtain ⟨⟨f, g₁⟩, hf, h⟩ := Build.outcome_bind_eq_ok.mp h
    obtain ⟨⟨k, g₂⟩, hk, h⟩ := Build.outcome_bind_eq_ok.mp h
    obtain rfl := Build.outcome_pure_eq_ok.mp h
    obtain ⟨hpl, hpr⟩ := Option.or_eq_none_iff.mp hp
    obtain ⟨hwired, hleft, hright, hregion⟩ := pair_realizes (ihl hpl hf) (ihr hpr hk)
    have hrow := Beside.cons hright .nil (Set.disjoint_empty _)
    rw [Set.union_empty] at hrow
    have hbuilt := (Beside.cons hleft hrow Set.Ico_disjoint_Ico_same).sequence
    rw [hregion, List.prod_pair] at hbuilt
    exact hwired.builds hbuilt
  | star inner ih =>
    unfold lower at h
    obtain ⟨⟨f, g₁⟩, hf, h⟩ := Build.outcome_bind_eq_ok.mp h
    obtain rfl := Build.outcome_pure_eq_ok.mp h
    have hinner := ih hp hf
    exact hinner.toRewired.builds hinner.realizes.zeroOrMore
  | plus inner ih =>
    unfold lower at h
    obtain ⟨⟨f, g₁⟩, hf, h⟩ := Build.outcome_bind_eq_ok.mp h
    obtain rfl := Build.outcome_pure_eq_ok.mp h
    have hinner := ih hp hf
    exact hinner.toRewired.builds hinner.realizes.oneOrMore
  | repeated inner min max ih =>
    unfold lower at h
    obtain ⟨⟨f, g₁⟩, hf, h⟩ := Build.outcome_bind_eq_ok.mp h
    obtain ⟨hinverted, hbounds⟩ := bounds_of_repeated hp
    have hinner := ih hinverted hf
    exact hinner.toRewired.builds (hinner.realizes.repetition hbounds h)
  | intersection left right ihl ihr =>
    rw [lower_intersection] at h
    obtain ⟨a, ha, h⟩ := Build.outcome_bind_eq_ok.mp h
    obtain ⟨b, hb, h⟩ := Build.outcome_bind_eq_ok.mp h
    obtain ⟨m, hm, h⟩ := Build.outcome_bind_eq_ok.mp h
    obtain rfl := Build.outcome_pure_eq_ok.mp h
    obtain ⟨hpl, f, g₁, hf, ha⟩ := compile_eq_ok ha
    obtain ⟨hpr, k, g₂, hk, hb⟩ := compile_eq_ok hb
    obtain ⟨hwella, hlefta⟩ := finish_exact (ihl hpl hf).realizes ha
    obtain ⟨hwellb, hrightb⟩ := finish_exact (ihr hpr hk).realizes hb
    obtain ⟨hwell, hlanguage⟩ := hwella.intersectionInStep hwellb hm
    rw [hlefta, hrightb] at hlanguage
    rw [Pattern.words, ← hlanguage]
    exact builds_embed g hwell.toValid
  | complement inner ih =>
    rw [lower_complement] at h
    obtain ⟨a, ha, h⟩ := Build.outcome_bind_eq_ok.mp h
    obtain ⟨m, hm, h⟩ := Build.outcome_bind_eq_ok.mp h
    obtain rfl := Build.outcome_pure_eq_ok.mp h
    obtain ⟨hp, f, g₁, hf, ha⟩ := compile_eq_ok ha
    obtain ⟨hwella, hinner⟩ := finish_exact (ih hp hf).realizes ha
    obtain ⟨hwell, hlanguage⟩ := hwella.complement hm
    rw [hinner] at hlanguage
    rw [Pattern.words, ← hlanguage]
    exact builds_embed g hwell.toValid
  | anyChar =>
    obtain rfl := Build.outcome_pure_eq_ok.mp h
    exact builds_anyChar g
  | empty =>
    obtain rfl := Build.outcome_pure_eq_ok.mp h
    exact builds_empty g
  | emptyString =>
    obtain rfl := Build.outcome_pure_eq_ok.mp h
    exact builds_emptyString g

/-! ## Whole compilations -/

/-- A compilation that succeeds finishes a fragment for the words of the pattern. -/
theorem compile_finishes {c : Compiler} (h : (c.compile p).outcome = .ok a) :
    ∃ g region f, g.Realizes Interval.Proper region f p.words ∧
      (finish c.limits c.minimize p f g).outcome = .ok a := by
  obtain ⟨hp, f, g, hlower, h⟩ := compile_eq_ok h
  exact ⟨g, _, f, (lower_builds hp hlower).realizes, h⟩

/-- What a compilation builds is well-formed and has the words of the pattern. -/
theorem compile_words {c : Compiler} (h : (c.compile p).outcome = .ok a) :
    a.WellFormed ∧ a.language = p.words := by
  obtain ⟨_, _, _, hf, h⟩ := compile_finishes h
  exact finish_exact hf h

/-- **Compilation is exact.** -/
theorem compile_exact {c : Compiler} (h : (c.compile p).outcome = .ok a) (text : String) :
    a.run text = true ↔ text.toList ∈ p.language := by
  obtain ⟨hwell, hlanguage⟩ := compile_words h
  rw [hwell.run_iff, hlanguage, p.mem_language_iff]
  rfl

/-- Boolean parts inside a loop, followed by a bounded repetition. -/
def layered : Pattern :=
  .concatenation (.star (.alternation (.char 'a') (.complement .anyChar)))
    (.repeated (.intersection .anyChar (.range 'a' 'c')) 1 (some 2))

theorem compile_layered : ∃ a, (compile { minimize := true } layered).outcome = .ok a ∧
    ∀ text : String, a.run text = true ↔ text.toList ∈ layered.language := by
  have hsome : (compile { minimize := true } layered).outcome.toOption.isSome = true := by
    decide +kernel
  cases h : (compile { minimize := true } layered).outcome with
  | error err =>
    rw [h] at hsome
    cases hsome
  | ok a => exact ⟨a, rfl, compile_exact h⟩

end Compiler

end IntervalAutomata
