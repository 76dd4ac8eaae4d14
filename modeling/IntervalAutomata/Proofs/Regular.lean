import IntervalAutomata.Operation.Regular
import IntervalAutomata.Proofs.Acceptors
import IntervalAutomata.Proofs.Compilation

/-! # Union, concatenation and repetition of automata

An embedded automaton is a fragment for its language, whatever loops go through its initial or its
accepting states, so the combinators do for automata what they do for fragments. The shortcuts on known
texts answer with the same language: a text repeated or put behind another one is the only word of the
power or the product. -/

namespace IntervalAutomata

open IntervalAutomata.Graph

namespace Automaton

variable {a b m : Automaton} {l : Language Symbol} {limits : Limits} {min : Nat} {max : Option Nat}

/-- What is flattened is well-formed and has the words of the fragment. -/
theorem exact_flatten {g : Graph} {region : Set Nat} {built : Fragment × Graph}
    (h : g.Builds Interval.Proper region built l) :
    (built.2.flatten built.1).value.WellFormed ∧ (built.2.flatten built.1).value.language = l :=
  h.realizes.toAutomaton

/-- Two operands, embedded one behind the other. -/
theorem Valid.embed_pair (ha : a.Valid) (hb : b.Valid) :
    let (f, g) := Graph.embed {} a
    let (h, k) := g.embed b
    ∃ region area, k.Realizes Interval.Proper region f a.language ∧
      k.Realizes Interval.Proper area h b.language ∧ Disjoint region area := by
  obtain ⟨-, hf, hh, -⟩ := Compiler.pair_realizes (builds_embed {} ha) (builds_embed _ hb)
  exact ⟨_, _, hf, hh, Set.Ico_disjoint_Ico_same⟩

/-! ## Union and concatenation -/

/-- **A union accepts what either accepts.** -/
theorem WellFormed.union (ha : a.WellFormed) (hb : b.WellFormed) :
    (a.union b).value.WellFormed ∧ (a.union b).value.language = a.language + b.language := by
  obtain ⟨region, area, hf, hh, hdisjoint⟩ := ha.toValid.embed_pair hb.toValid
  have hgeneral := exact_flatten (hf.alternation hh hdisjoint)
  unfold Automaton.union
  dsimp only
  split
  · rename_i s t hs ht
    split
    · rename_i heq
      refine ⟨ha, ?_⟩
      show a.language = _
      rw [hb.known t ht, ← heq, ← ha.known s hs, Language.add_self]
    · exact hgeneral
  · exact hgeneral

theorem symbols_append (s t : String) : symbols (s ++ t) = symbols s ++ symbols t := by
  rw [symbols, String.toList_append, List.map_append]
  rfl

/-- **A concatenation accepts what can be cut into a word of each.** -/
theorem WellFormed.concatenation (ha : a.WellFormed) (hb : b.WellFormed) :
    (a.concatenation b).value.WellFormed ∧
      (a.concatenation b).value.language = a.language * b.language := by
  unfold Automaton.concatenation
  split
  · rename_i s t hs ht
    refine ⟨wellFormed_string _, ?_⟩
    show (string (s ++ t)).language = _
    rw [language_string, ha.known s hs, hb.known t ht, symbols_append, Pattern.singleton_mul]
  · obtain ⟨region, area, hf, hh, hdisjoint⟩ := ha.toValid.embed_pair hb.toValid
    have hlast := Beside.cons hh .nil (Set.disjoint_empty _)
    rw [Set.union_empty] at hlast
    have hrow := (Beside.cons hf hlast hdisjoint).sequence
    rw [List.prod_pair] at hrow
    dsimp only at hrow ⊢
    exact exact_flatten hrow

/-! ## Repetition without bounds -/

theorem Valid.exact_rewire {wire : Graph → Fragment → Fragment × Graph} (ha : a.Valid)
    (hwire : ∀ {g : Graph} {region : Set Nat} {f : Fragment},
      g.Realizes Interval.Proper region f a.language → g.Builds Interval.Proper region (wire g f) l) :
    (a.rewire wire).value.WellFormed ∧ (a.rewire wire).value.language = l :=
  exact_flatten (hwire (builds_embed {} ha).realizes)

theorem Valid.star (ha : a.Valid) :
    a.star.value.WellFormed ∧ a.star.value.language = KStar.kstar a.language :=
  ha.exact_rewire Realizes.zeroOrMore

theorem Valid.plus (ha : a.Valid) :
    a.plus.value.WellFormed ∧ a.plus.value.language = a.language * KStar.kstar a.language :=
  ha.exact_rewire Realizes.oneOrMore

theorem Valid.optional (ha : a.Valid) :
    a.optional.value.WellFormed ∧ a.optional.value.language = a.language + 1 :=
  ha.exact_rewire Realizes.optional

/-! ## Repetition within bounds -/

/-- Unrolling accepts the rounds between the bounds, whenever it succeeds. -/
theorem Valid.unroll (ha : a.Valid) (hbounds : ∀ n, max = some n → min ≤ n)
    (h : (a.unroll limits min max).outcome = .ok m) :
    m.WellFormed ∧ m.language = rounds a.language min max := by
  unfold Automaton.unroll at h
  obtain ⟨built, hbuilt, h⟩ := Build.outcome_bind_eq_ok.mp h
  obtain ⟨flat, hflat, h⟩ := Build.outcome_bind_eq_ok.mp h
  obtain ⟨_, -, h⟩ := Build.outcome_bind_eq_ok.mp h
  obtain rfl := Build.outcome_pure_eq_ok.mp h
  rw [Build.outcome_lift] at hflat
  obtain rfl := Except.ok.inj hflat
  exact exact_flatten ((builds_embed {} ha).realizes.repetition hbounds hbuilt)

/-- The one word of so many rounds of a known text. -/
theorem WellFormed.power_known (ha : a.WellFormed) {text : String} (h : a.singleton = some text)
    (n : Nat) : (string (String.ofList (Pattern.repeatWord n text.toList))).language =
      rounds a.language n (some n) := by
  rw [language_string, Pattern.rounds_self, ha.known text h, Pattern.singleton_pow, symbols,
    String.toList_ofList, Pattern.repeatWord_eq, List.map_flatten, List.map_replicate]
  rfl

/-- **A repetition accepts the rounds between its bounds**, whenever it is built. -/
theorem WellFormed.repetitionWith (ha : a.WellFormed)
    (h : (a.repetitionWith limits min max).outcome = .ok m) :
    m.WellFormed ∧ m.language = rounds a.language min max := by
  unfold Automaton.repetitionWith at h
  split at h
  · exact ha.toValid.unroll nofun h
  · rename_i max
    split at h
    · cases h
    rename_i hle
    have hbounds : ∀ n, some max = some n → min ≤ n := fun n hn =>
      Option.some.inj hn ▸ Nat.le_of_not_lt hle
    split at h
    · rename_i text hs heq
      obtain ⟨_, -, h⟩ := Build.outcome_bind_eq_ok.mp h
      obtain rfl := Build.outcome_pure_eq_ok.mp h
      obtain rfl := beq_iff_eq.mp heq
      exact ⟨wellFormed_string _, ha.power_known hs min⟩
    · exact ha.toValid.unroll hbounds h

/-- Bounds in the wrong order are refused, whatever is repeated. -/
theorem repetitionWith_inverted {n : Nat} (h : n < min) :
    (a.repetitionWith limits min (some n)).outcome = .error (.invertedBounds min n) := by
  unfold Automaton.repetitionWith
  split
  · cases ‹some n = none›
  · rename_i heq
    cases heq
    rw [if_pos h]
    rfl

end Automaton

end IntervalAutomata
