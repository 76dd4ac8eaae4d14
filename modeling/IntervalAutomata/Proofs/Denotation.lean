import IntervalAutomata.Pattern.Basic
import IntervalAutomata.Proofs.Interval
import Mathlib.Computability.Language
import Mathlib.Order.CompletePartialOrder
import Mathlib.Order.ConditionallyCompleteLattice.Basic

/-! # What a pattern denotes

A pattern denotes a language of texts, and complements are taken among all texts. Automata read symbols,
of which some are no characters, so constructions are compared with a second denotation: words over the
alphabet, with complements among those. Reading texts as words takes the second one back to the first
constructor by constructor, because a text is read character by character. -/

namespace IntervalAutomata

section

variable {α β : Type} {l : Language α} {w : List α} {n min max : Nat}

/-- What some number of rounds of `l` spell, from `min` on and up to `max` where there is one. -/
def rounds (l : Language α) (min : Nat) (max : Option Nat) : Language α :=
  {w | ∃ k, min ≤ k ∧ (∀ m, max = some m → k ≤ m) ∧ w ∈ l ^ k}

/-- Up to `n` rounds of `l`, each round behind an option. -/
def nestedRounds (l : Language α) : (n : Nat) → Language α
  | 0 => 1
  | n + 1 => l * nestedRounds l n + 1

theorem mem_rounds {max : Option Nat} : w ∈ rounds l min max ↔
    ∃ k, min ≤ k ∧ (∀ m, max = some m → k ≤ m) ∧ w ∈ l ^ k := Iff.rfl

theorem mem_nestedRounds : w ∈ nestedRounds l n ↔ ∃ k ≤ n, w ∈ l ^ k := by
  induction n generalizing w with
  | zero => simp [nestedRounds]
  | succ n ih =>
    rw [nestedRounds, Language.mem_add, Language.mem_mul]
    constructor
    · rintro (⟨u, hu, v, hv, rfl⟩ | hw)
      · obtain ⟨k, hk, hv⟩ := ih.mp hv
        exact ⟨k + 1, Nat.succ_le_succ hk, pow_succ' l k ▸ Language.append_mem_mul hu hv⟩
      · exact ⟨0, Nat.zero_le _, hw⟩
    · intro ⟨k, hk, hw⟩
      cases k with
      | zero => exact .inr hw
      | succ k =>
        rw [pow_succ', Language.mem_mul] at hw
        obtain ⟨u, hu, v, hv, rfl⟩ := hw
        exact .inl ⟨u, hu, v, ih.mpr ⟨k, Nat.le_of_succ_le_succ hk, hv⟩, rfl⟩

/-- Mandatory rounds first, then optional ones nested into one another. -/
theorem rounds_some (h : min ≤ max) :
    rounds l min (some max) = l ^ min * nestedRounds l (max - min) := by
  ext w
  rw [mem_rounds, Language.mem_mul]
  constructor
  · intro ⟨k, hmin, hmax, hw⟩
    have hle := hmax max rfl
    rw [show k = min + (k - min) by omega, pow_add, Language.mem_mul] at hw
    obtain ⟨u, hu, v, hv, rfl⟩ := hw
    exact ⟨u, hu, v, mem_nestedRounds.mpr ⟨k - min, by omega, hv⟩, rfl⟩
  · rintro ⟨u, hu, v, hv, rfl⟩
    obtain ⟨k, hk, hv⟩ := mem_nestedRounds.mp hv
    refine ⟨min + k, Nat.le_add_right _ _, fun m hm => ?_, ?_⟩
    · have := Option.some.inj hm
      omega
    · rw [pow_add]
      exact Language.append_mem_mul hu hv

/-- Mandatory rounds first, then a loop. -/
theorem rounds_none : rounds l min none = l ^ min * KStar.kstar l := by
  ext w
  rw [mem_rounds, Language.mem_mul]
  simp only [Language.kstar_eq_iSup_pow, Language.mem_iSup]
  constructor
  · rintro ⟨k, hmin, -, hw⟩
    rw [show k = min + (k - min) by omega, pow_add, Language.mem_mul] at hw
    obtain ⟨u, hu, v, hv, rfl⟩ := hw
    exact ⟨u, hu, v, ⟨k - min, hv⟩, rfl⟩
  · rintro ⟨u, hu, v, ⟨k, hv⟩, rfl⟩
    refine ⟨min + k, Nat.le_add_right _ _, nofun, ?_⟩
    rw [pow_add]
    exact Language.append_mem_mul hu hv

/-! ## Reading words letter by letter -/

/-- The words that `f` reads as words of `l`. -/
def readAs (f : α → β) (l : Language β) : Language α := {w | w.map f ∈ l}

variable {f : α → β} {m m' : Language β}

theorem mem_readAs : w ∈ readAs f m ↔ w.map f ∈ m := Iff.rfl

theorem readAs_one : readAs f 1 = 1 := by
  ext w
  rw [mem_readAs, Language.mem_one, Language.mem_one, List.map_eq_nil_iff]

theorem readAs_mul : readAs f (m * m') = readAs f m * readAs f m' := by
  ext w
  rw [mem_readAs, Language.mem_mul, Language.mem_mul]
  constructor
  · intro ⟨u, hu, v, hv, huv⟩
    obtain ⟨u', v', rfl, rfl, rfl⟩ := List.map_eq_append_iff.mp huv.symm
    exact ⟨u', hu, v', hv, rfl⟩
  · rintro ⟨u, hu, v, hv, rfl⟩
    exact ⟨u.map f, hu, v.map f, hv, List.map_append.symm⟩

theorem readAs_pow : readAs f (m ^ n) = readAs f m ^ n := by
  induction n with
  | zero => rw [pow_zero, pow_zero, readAs_one]
  | succ n ih => rw [pow_succ, pow_succ, readAs_mul, ih]

theorem readAs_rounds {max : Option Nat} :
    readAs f (rounds m min max) = rounds (readAs f m) min max := by
  ext w
  simp only [mem_readAs, mem_rounds, ← readAs_pow]

theorem kstar_eq_rounds : KStar.kstar l = rounds l 0 none := by
  rw [rounds_none, pow_zero, one_mul]

theorem readAs_kstar : readAs f (KStar.kstar m) = KStar.kstar (readAs f m) := by
  rw [kstar_eq_rounds, kstar_eq_rounds, readAs_rounds]

end

/-! ## Patterns -/

namespace Pattern

/-- The texts a pattern matches. -/
def language : Pattern → Language Char
  | char value => {[value]}
  | range start stop => {w | ∃ c, start ≤ c ∧ c ≤ stop ∧ w = [c]}
  | alternation left right => left.language + right.language
  | concatenation left right => left.language * right.language
  | star inner => KStar.kstar inner.language
  | plus inner => inner.language * KStar.kstar inner.language
  | repeated inner min max => rounds inner.language min max
  | intersection left right => left.language ⊓ right.language
  | complement inner => inner.languageᶜ
  | anyChar => {w | ∃ c, w = [c]}
  | empty => 0
  | emptyString => 1

/-- The words over the alphabet that a pattern matches. -/
def words : Pattern → Language Symbol
  | char value => {[value.toNat]}
  | range start stop => {w | ∃ c : Nat, start.toNat ≤ c ∧ c ≤ stop.toNat ∧ w = [c]}
  | alternation left right => left.words + right.words
  | concatenation left right => left.words * right.words
  | star inner => KStar.kstar inner.words
  | plus inner => inner.words * KStar.kstar inner.words
  | repeated inner min max => rounds inner.words min max
  | intersection left right => left.words ⊓ right.words
  | complement inner => {w | (∀ c ∈ w, c ≤ maxSymbol) ∧ w ∉ inner.words}
  | anyChar => {w | ∃ c : Nat, c ≤ maxSymbol ∧ w = [c]}
  | empty => 0
  | emptyString => 1

end Pattern

theorem map_toNat_eq_singleton {w : List Char} {n : Nat} :
    w.map Char.toNat = [n] ↔ ∃ c, c.toNat = n ∧ w = [c] := by
  rw [List.map_eq_singleton_iff]
  exact exists_congr fun c => And.comm

namespace Pattern

/-- **A text belongs to the language of a pattern when its symbols form one of the words.** -/
theorem mem_language_iff (p : Pattern) (w : List Char) :
    w ∈ p.language ↔ w.map Char.toNat ∈ p.words := by
  suffices h : p.language = readAs Char.toNat p.words by rw [h, mem_readAs]
  induction p with
  | char value =>
    ext w
    show w = [value] ↔ w.map Char.toNat = [value.toNat]
    rw [map_toNat_eq_singleton]
    simp only [Char.toNat_inj, exists_eq_left]
  | range start stop =>
    ext w
    show (∃ c, start ≤ c ∧ c ≤ stop ∧ w = [c]) ↔
      ∃ n, start.toNat ≤ n ∧ n ≤ stop.toNat ∧ w.map Char.toNat = [n]
    simp only [map_toNat_eq_singleton]
    constructor
    · rintro ⟨c, hstart, hstop, rfl⟩
      exact ⟨_, hstart, hstop, c, rfl, rfl⟩
    · rintro ⟨_, hstart, hstop, c, rfl, rfl⟩
      exact ⟨c, hstart, hstop, rfl⟩
  | alternation left right ihl ihr =>
    rw [language, words, ihl, ihr]
    rfl
  | concatenation left right ihl ihr => rw [language, words, ihl, ihr, readAs_mul]
  | star inner ih => rw [language, words, ih, readAs_kstar]
  | plus inner ih => rw [language, words, ih, readAs_mul, readAs_kstar]
  | repeated inner min max ih => rw [language, words, ih, readAs_rounds]
  | intersection left right ihl ihr =>
    rw [language, words, ihl, ihr]
    rfl
  | complement inner ih =>
    rw [language, words, ih]
    ext w
    refine (and_iff_right fun c hc => ?_).symm
    obtain ⟨c, -, rfl⟩ := List.mem_map.mp hc
    exact toNat_le_maxSymbol c
  | anyChar =>
    ext w
    show (∃ c, w = [c]) ↔ ∃ n, n ≤ maxSymbol ∧ w.map Char.toNat = [n]
    simp only [map_toNat_eq_singleton]
    constructor
    · rintro ⟨c, rfl⟩
      exact ⟨_, toNat_le_maxSymbol c, c, rfl, rfl⟩
    · rintro ⟨_, -, c, rfl, rfl⟩
      exact ⟨c, rfl⟩
  | empty => rfl
  | emptyString => exact readAs_one.symm

/-! ## Single words -/

theorem repeatWord_eq (n : Nat) (word : List Char) :
    repeatWord n word = (List.replicate n word).flatten := by
  unfold repeatWord
  split
  · rename_i hnil
    rw [List.isEmpty_iff.mp hnil]
    simp
  · rfl

theorem singleton_mul {α : Type} (u v : List α) :
    ({u} : Language α) * {v} = {u ++ v} := by
  ext w
  rw [Language.mem_mul]
  show (∃ a, a = u ∧ ∃ b, b = v ∧ a ++ b = w) ↔ w = u ++ v
  simp only [exists_eq_left]
  exact eq_comm

theorem singleton_pow {α : Type} (u : List α) (n : Nat) :
    ({u} : Language α) ^ n = {(List.replicate n u).flatten} := by
  induction n with
  | zero => rfl
  | succ n ih => rw [pow_succ', ih, singleton_mul, List.replicate_succ, List.flatten_cons]

theorem rounds_self {α : Type} (l : Language α) (n : Nat) : rounds l n (some n) = l ^ n := by
  rw [rounds_some (Nat.le_refl n), Nat.sub_self, nestedRounds, mul_one]

/-- Where the shape of a pattern shows one word, that word is all it matches. -/
theorem words_of_word? {p : Pattern} {word : List Char} (h : p.word? = some word) :
    p.words = {word.map Char.toNat} := by
  induction p generalizing word with
  | char value =>
    cases h
    rfl
  | range start stop =>
    replace h : (if start = stop then some [start] else none) = some word := h
    split at h
    · rename_i heq
      obtain rfl := heq
      obtain rfl := Option.some.inj h
      ext w
      show (∃ n, start.toNat ≤ n ∧ n ≤ start.toNat ∧ w = [n]) ↔ w = [start.toNat]
      constructor
      · rintro ⟨n, hstart, hstop, rfl⟩
        rw [Nat.le_antisymm hstop hstart]
      · rintro rfl
        exact ⟨_, Nat.le_refl _, Nat.le_refl _, rfl⟩
    · cases h
  | alternation left right ihl ihr =>
    obtain ⟨u, hu, h⟩ := Option.bind_eq_some_iff.mp h
    obtain ⟨v, hv, h⟩ := Option.bind_eq_some_iff.mp h
    split at h
    · rename_i heq
      obtain rfl := Option.some.inj h
      rw [words, ihl hu, ihr hv, heq, Language.add_self]
    · cases h
  | concatenation left right ihl ihr =>
    obtain ⟨u, hu, h⟩ := Option.bind_eq_some_iff.mp h
    obtain ⟨v, hv, h⟩ := Option.bind_eq_some_iff.mp h
    obtain rfl := Option.some.inj h
    rw [words, ihl hu, ihr hv, singleton_mul, List.map_append]
  | repeated inner min max ih =>
    cases max with
    | none => cases h
    | some max =>
      replace h : (if min = max then inner.word?.map (repeatWord min) else none) = some word := h
      split at h
      · rename_i heq
        obtain ⟨u, hu, rfl⟩ := Option.map_eq_some_iff.mp h
        rw [words, ih hu, ← heq, rounds_self, singleton_pow, repeatWord_eq, List.map_flatten,
          List.map_replicate]
      · cases h
  | emptyString =>
    cases h
    rfl
  | star | plus | intersection | complement | anyChar | empty => cases h

end Pattern

end IntervalAutomata
