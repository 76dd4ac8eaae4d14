import IntervalAutomata.Proofs.Denotation

/-! # Regrouping concatenations

What a concatenation matches does not depend on where it is split in two. Flattened, a pattern is a
sequence of factors whose operands are sequences again. Two patterns have the same sequence exactly when
regrouping leads from one to the other: a sequence is also the pattern that groups everything to the
right, and every pattern can be regrouped into that one. -/

namespace IntervalAutomata.Pattern

/-- Changing the grouping of concatenations, anywhere in a pattern. -/
inductive Regrouped : Pattern → Pattern → Prop
  | refl (p : Pattern) : Regrouped p p
  | symm {p q : Pattern} : Regrouped p q → Regrouped q p
  | trans {p q r : Pattern} : Regrouped p q → Regrouped q r → Regrouped p r
  | assoc (p q r : Pattern) :
    Regrouped (concatenation (concatenation p q) r) (concatenation p (concatenation q r))
  | alternation {p q p' q' : Pattern} : Regrouped p p' → Regrouped q q' →
    Regrouped (alternation p q) (alternation p' q')
  | concatenation {p q p' q' : Pattern} : Regrouped p p' → Regrouped q q' →
    Regrouped (concatenation p q) (concatenation p' q')
  | intersection {p q p' q' : Pattern} : Regrouped p p' → Regrouped q q' →
    Regrouped (intersection p q) (intersection p' q')
  | star {p q : Pattern} : Regrouped p q → Regrouped (star p) (star q)
  | plus {p q : Pattern} : Regrouped p q → Regrouped (plus p) (plus q)
  | repeated {p q : Pattern} (min : Nat) (max : Option Nat) : Regrouped p q →
    Regrouped (repeated p min max) (repeated q min max)
  | complement {p q : Pattern} : Regrouped p q → Regrouped (complement p) (complement q)

/-! ## Sequences -/

mutual

/-- A pattern that is no concatenation. -/
inductive Factor where
  | char (value : Char)
  | range (start stop : Char)
  | alternation (left right : Sequence)
  | star (inner : Sequence)
  | plus (inner : Sequence)
  | repeated (inner : Sequence) (min : Nat) (max : Option Nat)
  | intersection (left right : Sequence)
  | complement (inner : Sequence)
  | anyChar
  | empty
  | emptyString
deriving DecidableEq

/-- One factor or more. -/
inductive Sequence where
  | single (factor : Factor)
  | cons (factor : Factor) (rest : Sequence)
deriving DecidableEq

end

def Sequence.append : Sequence → Sequence → Sequence
  | .single factor, y => .cons factor y
  | .cons factor rest, y => .cons factor (rest.append y)

/-- The factors of a pattern from left to right, with operands flattened likewise. -/
def sequence : Pattern → Sequence
  | char value => .single (.char value)
  | range start stop => .single (.range start stop)
  | alternation left right => .single (.alternation left.sequence right.sequence)
  | concatenation left right => left.sequence.append right.sequence
  | star inner => .single (.star inner.sequence)
  | plus inner => .single (.plus inner.sequence)
  | repeated inner min max => .single (.repeated inner.sequence min max)
  | intersection left right => .single (.intersection left.sequence right.sequence)
  | complement inner => .single (.complement inner.sequence)
  | anyChar => .single .anyChar
  | empty => .single .empty
  | emptyString => .single .emptyString

mutual

def Factor.pattern : Factor → Pattern
  | .char value => .char value
  | .range start stop => .range start stop
  | .alternation left right => .alternation left.pattern right.pattern
  | .star inner => .star inner.pattern
  | .plus inner => .plus inner.pattern
  | .repeated inner min max => .repeated inner.pattern min max
  | .intersection left right => .intersection left.pattern right.pattern
  | .complement inner => .complement inner.pattern
  | .anyChar => .anyChar
  | .empty => .empty
  | .emptyString => .emptyString

/-- The pattern that groups a sequence to the right. -/
def Sequence.pattern : Sequence → Pattern
  | .single factor => factor.pattern
  | .cons factor rest => .concatenation factor.pattern rest.pattern

end

theorem Sequence.append_assoc : ∀ x y z : Sequence,
    (x.append y).append z = x.append (y.append z)
  | .single _, _, _ => rfl
  | .cons factor rest, y, z => congrArg (cons factor) (append_assoc rest y z)

theorem Regrouped.sequence_eq {p q : Pattern} (h : Regrouped p q) : p.sequence = q.sequence := by
  induction h with
  | refl => rfl
  | symm _ ih => exact ih.symm
  | trans _ _ ih ih' => exact ih.trans ih'
  | assoc p q r => exact Sequence.append_assoc _ _ _
  | alternation _ _ ihl ihr | concatenation _ _ ihl ihr | intersection _ _ ihl ihr =>
    rw [sequence, sequence, ihl, ihr]
  | star _ ih | plus _ ih | repeated _ _ _ ih | complement _ ih => rw [sequence, sequence, ih]

theorem regrouped_append : ∀ x y : Sequence,
    Regrouped (concatenation x.pattern y.pattern) (x.append y).pattern
  | .single _, _ => .refl _
  | .cons factor rest, y =>
    .trans (.assoc _ _ _) (.concatenation (.refl factor.pattern) (regrouped_append rest y))

/-- Every pattern can be grouped to the right. -/
theorem regrouped_pattern (p : Pattern) : Regrouped p p.sequence.pattern := by
  induction p with
  | char | range | anyChar | empty | emptyString => exact .refl _
  | alternation left right ihl ihr => exact .alternation ihl ihr
  | concatenation left right ihl ihr =>
    exact .trans (.concatenation ihl ihr) (regrouped_append _ _)
  | star inner ih => exact .star ih
  | plus inner ih => exact .plus ih
  | repeated inner min max ih => exact .repeated min max ih
  | intersection left right ihl ihr => exact .intersection ihl ihr
  | complement inner ih => exact .complement ih

/-- **Regrouping is what flattening forgets.** -/
theorem sequence_eq_iff {p q : Pattern} : p.sequence = q.sequence ↔ Regrouped p q := by
  refine ⟨fun h => ?_, Regrouped.sequence_eq⟩
  have hq := (regrouped_pattern q).symm
  rw [← h] at hq
  exact (regrouped_pattern p).trans hq

instance (p q : Pattern) : Decidable (Regrouped p q) := decidable_of_iff _ sequence_eq_iff

example :
    Regrouped (.star (.concatenation (.concatenation .anyChar .empty) (.char 'a')))
      (.star (.concatenation .anyChar (.concatenation .empty (.char 'a')))) ∧
    ¬ Regrouped (.concatenation .anyChar .empty) (.concatenation .empty .anyChar) := by decide

/-- Regrouping does not change the words of a pattern. -/
theorem Regrouped.words_eq {p q : Pattern} (h : Regrouped p q) : p.words = q.words := by
  induction h with
  | refl => rfl
  | symm _ ih => exact ih.symm
  | trans _ _ ih ih' => exact ih.trans ih'
  | assoc p q r => exact mul_assoc _ _ _
  | alternation _ _ ihl ihr | concatenation _ _ ihl ihr | intersection _ _ ihl ihr =>
    rw [words, words, ihl, ihr]
  | star _ ih | plus _ ih | repeated _ _ _ ih | complement _ ih => rw [words, words, ih]

theorem Regrouped.language_eq {p q : Pattern} (h : Regrouped p q) : p.language = q.language := by
  ext text
  rw [mem_language_iff, mem_language_iff, h.words_eq]

end IntervalAutomata.Pattern
