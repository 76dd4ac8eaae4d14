import IntervalAutomata.Proofs.Compilation
import IntervalAutomata.Proofs.Regrouping
import IntervalAutomata.Proofs.SelfDelimiting

/-! # Displayed patterns are unambiguous

A factor shows where it ends, whatever follows it, and a sequence does where an operand has to end. The
first character tells the kind of a factor, except for those that open with a bracket: these differ only
behind their first operand, which therefore has to be read first. That operand is a sequence, which ends
where no further factor can start. There is one lemma for each kind of factor, and the induction over
factors and sequences puts them together. What the text does not show is how concatenations are grouped,
so two patterns with one text have the same sequence. -/

namespace IntervalAutomata.Pattern

theorem Regrouped.displayChars_eq {p q : Pattern} (h : Regrouped p q) :
    p.displayChars = q.displayChars := by
  induction h with
  | refl => rfl
  | symm _ ih => exact ih.symm
  | trans _ _ ih ih' => exact ih.trans ih'
  | assoc p q r => exact List.append_assoc _ _ _
  | alternation _ _ ihl ihr | concatenation _ _ ihl ihr | intersection _ _ ihl ihr =>
    rw [displayChars, displayChars, ihl, ihr]
  | star _ ih | plus _ ih | repeated _ _ _ ih | complement _ ih =>
    rw [displayChars, displayChars, ih]

def Factor.text (f : Factor) : List Char := f.pattern.displayChars

def Sequence.text (x : Sequence) : List Char := x.pattern.displayChars

/-- A pattern is displayed as its sequence is. -/
theorem text_sequence (p : Pattern) : p.sequence.text = p.displayChars :=
  (regrouped_pattern p).displayChars_eq.symm

variable {f g : Factor} {x y : Sequence} {r s t : List Char}

/-! ## First characters -/

/-- The reserved character that a text starts with. A backslash does not count. -/
def mark? (s : List Char) : Option Char := s.head?.filter fun c => c ∈ reserved ∧ c ≠ '\\'

def Factor.opening? : Factor → Option Char
  | .char _ => none
  | .range _ _ => some '['
  | .complement _ => some '~'
  | .anyChar => some '.'
  | .empty => some '#'
  | .alternation _ _ | .intersection _ _ | .star _ | .plus _ | .repeated _ _ _ | .emptyString =>
    some '('

theorem mark?_displayChar (c : Char) (s : List Char) : mark? (displayChar c ++ s) = none := by
  obtain ⟨-, h⟩ | ⟨hplain, h⟩ | h := displayChar_cases c <;> rw [h]
  · rfl
  · simp [mark?, hplain]
  · rfl

theorem mark?_text (f : Factor) (s : List Char) : mark? (f.text ++ s) = f.opening? := by
  cases f with
  | char value => exact mark?_displayChar value s
  | _ => simp [Factor.text, Factor.pattern, displayChars, mark?, Factor.opening?, reserved]

theorem Factor.opening?_eq (h : f.text ++ s = g.text ++ t) : f.opening? = g.opening? := by
  rw [← mark?_text f s, h, mark?_text]

/-- Nothing, or a character behind which no sequence goes on. -/
def Ending (s : List Char) : Prop := ∀ c ∈ s.head?, c ∈ [')', '|', '&']

theorem ending_close (s : List Char) : Ending (')' :: s) := by
  simp [Ending]

theorem reserved_of_ending {c : Char} (h : Ending (c :: s)) : c ∈ reserved :=
  (by decide : [')', '|', '&'] ⊆ reserved) (h c rfl)

theorem Factor.not_ending_text (f : Factor) (s : List Char) : ¬ Ending (f.text ++ s) := by
  cases f with
  | char value =>
    show ¬ Ending (displayChar value ++ s)
    obtain ⟨-, h⟩ | ⟨hplain, h⟩ | h := displayChar_cases value <;> rw [h]
    · simp [Ending]
    · exact fun hending => hplain (reserved_of_ending hending)
    · simp [Ending]
  | _ => simp [text, pattern, displayChars, Ending]

theorem Sequence.text_cons (f : Factor) (x : Sequence) (s : List Char) :
    (Sequence.cons f x).text ++ s = f.text ++ (x.text ++ s) :=
  List.append_assoc _ _ _

theorem Sequence.not_ending_text (x : Sequence) (s : List Char) : ¬ Ending (x.text ++ s) := by
  cases x with
  | single factor => exact factor.not_ending_text s
  | cons factor rest =>
    rw [text_cons]
    exact factor.not_ending_text _

/-! ## Where factors and sequences end -/

/-- Whatever follows the text of this factor, no other factor can be read there. -/
def Factor.Delimited (f : Factor) : Prop :=
  ∀ ⦃g : Factor⦄ ⦃s t : List Char⦄, f.text ++ s = g.text ++ t → f = g ∧ s = t

/-- The same for a sequence, which goes on as long as factors follow. -/
def Sequence.Delimited (x : Sequence) : Prop :=
  ∀ ⦃y : Sequence⦄ ⦃s t : List Char⦄, Ending s → Ending t →
    x.text ++ s = y.text ++ t → x = y ∧ s = t

/-- A sequence ends where its bracket is closed. -/
theorem Sequence.Delimited.close {u : List Char} (hx : x.Delimited)
    (h : u ++ (x.text ++ [')']) ++ s = u ++ (y.text ++ [')']) ++ t) : x = y ∧ s = t := by
  simp only [List.append_assoc] at h
  obtain ⟨hxy, hclose⟩ := hx (ending_close s) (ending_close t) (List.append_cancel_left h)
  exact ⟨hxy, (List.cons.inj hclose).2⟩

theorem Factor.delimited_char (value : Char) : (Factor.char value).Delimited := by
  intro g s t h
  have hopening := opening?_eq h
  cases g with
  | char value' =>
    obtain ⟨rfl, rfl⟩ := selfDelimiting_displayChar h
    exact ⟨rfl, rfl⟩
  | _ => simp [opening?] at hopening

theorem Factor.delimited_range (start stop : Char) : (Factor.range start stop).Delimited := by
  intro g s t h
  have hopening := opening?_eq h
  cases g with
  | range start' stop' =>
    simp only [text, pattern, displayChars, List.append_assoc] at h
    obtain ⟨rfl, hstop⟩ := selfDelimiting_displayChar (List.append_cancel_left h)
    obtain ⟨rfl, hclose⟩ := selfDelimiting_displayChar (List.append_cancel_left hstop)
    exact ⟨rfl, List.append_cancel_left hclose⟩
  | _ => simp [opening?] at hopening

theorem Factor.delimited_complement (hx : x.Delimited) : (Factor.complement x).Delimited := by
  intro g s t h
  have hopening := opening?_eq h
  cases g with
  | complement y =>
    obtain ⟨rfl, rfl⟩ := hx.close (u := ['~', '(']) h
    exact ⟨rfl, rfl⟩
  | _ => simp [opening?] at hopening

theorem Factor.delimited_anyChar : Factor.anyChar.Delimited := by
  intro g s t h
  have hopening := opening?_eq h
  cases g with
  | anyChar => exact ⟨rfl, List.append_cancel_left h⟩
  | _ => simp [opening?] at hopening

theorem Factor.delimited_empty : Factor.empty.Delimited := by
  intro g s t h
  have hopening := opening?_eq h
  cases g with
  | empty => exact ⟨rfl, List.append_cancel_left h⟩
  | _ => simp [opening?] at hopening

/-! ## Brackets -/

/-- A factor with an operand behind its opening bracket, and the text behind that operand. -/
inductive Bracketed : Factor → Sequence → List Char → Prop
  | alternation (left right : Sequence) :
    Bracketed (.alternation left right) left (['|'] ++ (right.text ++ [')']))
  | intersection (left right : Sequence) :
    Bracketed (.intersection left right) left (['&'] ++ (right.text ++ [')']))
  | star (inner : Sequence) : Bracketed (.star inner) inner [')', '*']
  | plus (inner : Sequence) : Bracketed (.plus inner) inner [')', '+']
  | repeated (inner : Sequence) (min : Nat) (max : Option Nat) :
    Bracketed (.repeated inner min max) inner ([')'] ++ displayBounds min max)

theorem Bracketed.text_append (h : Bracketed f x r) (s : List Char) :
    f.text ++ s = ['('] ++ (x.text ++ (r ++ s)) := by
  cases h <;> simp [Factor.text, Sequence.text, Factor.pattern, displayChars]

theorem Bracketed.opening?_eq (h : Bracketed f x r) : f.opening? = some '(' := by
  cases h <;> rfl

theorem Bracketed.ending (h : Bracketed f x r) (s : List Char) : Ending (r ++ s) := by
  cases h <;> simp [Ending]

theorem bracketed_of_opening? (h : g.opening? = some '(') :
    g = .emptyString ∨ ∃ y r, Bracketed g y r := by
  cases g with
  | emptyString => exact .inl rfl
  | alternation | intersection | star | plus | repeated => exact .inr ⟨_, _, by constructor⟩
  | _ => simp [Factor.opening?] at h

/-- No operand is empty. -/
theorem Bracketed.text_ne (h : Bracketed f x r) (s t : List Char) :
    f.text ++ s ≠ Factor.emptyString.text ++ t := by
  intro heq
  rw [h.text_append] at heq
  have hclosed : x.text ++ (r ++ s) = ')' :: t := List.append_cancel_left heq
  exact x.not_ending_text _ (hclosed ▸ ending_close t)

theorem Factor.delimited_emptyString : Factor.emptyString.Delimited := by
  intro g s t h
  obtain rfl | ⟨y, r, hg⟩ := bracketed_of_opening? (opening?_eq h).symm
  · exact ⟨rfl, List.append_cancel_left h⟩
  · exact absurd h.symm (hg.text_ne t s)

/-- Behind the first operand `x` the text `r` shows which factor it belongs to and where that ends. -/
def Closes (f : Factor) (x : Sequence) (r : List Char) : Prop :=
  ∀ ⦃g : Factor⦄ ⦃q s t : List Char⦄, Bracketed g x q → r ++ s = q ++ t → f = g ∧ s = t

theorem Bracketed.delimited (hf : Bracketed f x r) (hx : x.Delimited) (hr : Closes f x r) :
    f.Delimited := by
  intro g s t h
  obtain rfl | ⟨y, q, hg⟩ := bracketed_of_opening? ((Factor.opening?_eq h).symm.trans hf.opening?_eq)
  · exact absurd h (hf.text_ne s t)
  · rw [hf.text_append, hg.text_append] at h
    obtain ⟨rfl, hbehind⟩ := hx (hf.ending s) (hg.ending t) (List.append_cancel_left h)
    exact hr hg hbehind

theorem closes_alternation (x : Sequence) (hy : y.Delimited) :
    Closes (.alternation x y) x (['|'] ++ (y.text ++ [')'])) := by
  intro g q s t hg h
  cases hg with
  | alternation _ right =>
    obtain ⟨rfl, rfl⟩ := hy.close h
    exact ⟨rfl, rfl⟩
  | _ => simp at h

theorem closes_intersection (x : Sequence) (hy : y.Delimited) :
    Closes (.intersection x y) x (['&'] ++ (y.text ++ [')'])) := by
  intro g q s t hg h
  cases hg with
  | intersection _ right =>
    obtain ⟨rfl, rfl⟩ := hy.close h
    exact ⟨rfl, rfl⟩
  | _ => simp at h

theorem closes_star (x : Sequence) : Closes (.star x) x [')', '*'] := by
  intro g q s t hg h
  cases hg with
  | star => exact ⟨rfl, List.append_cancel_left h⟩
  | _ => simp [displayBounds] at h

theorem closes_plus (x : Sequence) : Closes (.plus x) x [')', '+'] := by
  intro g q s t hg h
  cases hg with
  | plus => exact ⟨rfl, List.append_cancel_left h⟩
  | _ => simp [displayBounds] at h

theorem closes_repeated (x : Sequence) (min : Nat) (max : Option Nat) :
    Closes (.repeated x min max) x ([')'] ++ displayBounds min max) := by
  intro g q s t hg h
  cases hg with
  | repeated _ min' max' =>
    rw [List.append_assoc, List.append_assoc] at h
    obtain ⟨rfl, rfl, rfl⟩ := displayBounds_cancel (List.append_cancel_left h)
    exact ⟨rfl, rfl⟩
  | _ => simp [displayBounds] at h

/-! ## Whole sequences -/

theorem Sequence.delimited_single (hf : f.Delimited) : (Sequence.single f).Delimited := by
  intro y s t hs ht h
  cases y with
  | single factor =>
    obtain ⟨rfl, rfl⟩ := hf h
    exact ⟨rfl, rfl⟩
  | cons factor rest =>
    rw [text_cons] at h
    obtain ⟨-, rfl⟩ := hf h
    exact absurd hs (rest.not_ending_text t)

theorem Sequence.delimited_cons (hf : f.Delimited) (hx : x.Delimited) :
    (Sequence.cons f x).Delimited := by
  intro y s t hs ht h
  rw [text_cons] at h
  cases y with
  | single factor =>
    obtain ⟨-, rfl⟩ := hf h
    exact absurd ht (x.not_ending_text s)
  | cons factor rest =>
    rw [text_cons] at h
    obtain ⟨rfl, hrest⟩ := hf h
    obtain ⟨rfl, rfl⟩ := hx hs ht hrest
    exact ⟨rfl, rfl⟩

mutual

theorem Factor.delimited : ∀ f : Factor, f.Delimited
  | .char value => Factor.delimited_char value
  | .range start stop => Factor.delimited_range start stop
  | .alternation left right =>
    (Bracketed.alternation left right).delimited left.delimited
      (closes_alternation left right.delimited)
  | .star inner => (Bracketed.star inner).delimited inner.delimited (closes_star inner)
  | .plus inner => (Bracketed.plus inner).delimited inner.delimited (closes_plus inner)
  | .repeated inner min max =>
    (Bracketed.repeated inner min max).delimited inner.delimited (closes_repeated inner min max)
  | .intersection left right =>
    (Bracketed.intersection left right).delimited left.delimited
      (closes_intersection left right.delimited)
  | .complement inner => Factor.delimited_complement inner.delimited
  | .anyChar => Factor.delimited_anyChar
  | .empty => Factor.delimited_empty
  | .emptyString => Factor.delimited_emptyString

theorem Sequence.delimited : ∀ x : Sequence, x.Delimited
  | .single factor => Sequence.delimited_single factor.delimited
  | .cons factor rest => Sequence.delimited_cons factor.delimited rest.delimited

end

/-- Different sequences have different texts. -/
theorem Sequence.text_injective : Function.Injective Sequence.text := by
  intro x y h
  exact (x.delimited (s := []) (t := []) nofun nofun (congrArg (· ++ []) h)).1

theorem display_eq_iff {p q : Pattern} : p.display = q.display ↔ p.sequence = q.sequence := by
  rw [display, display, String.ofList_inj, ← text_sequence, ← text_sequence]
  exact Sequence.text_injective.eq_iff

/-- Regrouped patterns compile to automata that accept the same texts, if they compile. -/
theorem Regrouped.run_eq {p q : Pattern} (h : Regrouped p q) {c d : Compiler} {a b : Automaton}
    (ha : (c.compile p).outcome = .ok a) (hb : (d.compile q).outcome = .ok b) (text : String) :
    a.run text = b.run text := by
  obtain ⟨hwella, hp⟩ := Compiler.compile_words ha
  obtain ⟨hwellb, hq⟩ := Compiler.compile_words hb
  rw [Bool.eq_iff_iff, hwella.run_iff, hwellb.run_iff, hp, hq, h.words_eq]

/-- **A displayed pattern is unambiguous.** Two patterns are displayed alike exactly when they are equal
once nested concatenations are flattened at every level, that is, up to regrouping. So they match the
same texts, and so do the automata they compile to. -/
theorem display_unambiguous (p q : Pattern) :
    (p.display = q.display ↔ p.sequence = q.sequence) ∧
    (p.sequence = q.sequence ↔ Regrouped p q) ∧
    (p.display = q.display → p.language = q.language ∧
      ∀ (c d : Compiler) (a b : Automaton), (c.compile p).outcome = .ok a →
        (d.compile q).outcome = .ok b → ∀ text, a.run text = b.run text) := by
  refine ⟨display_eq_iff, sequence_eq_iff, fun h => ?_⟩
  have hregrouped := sequence_eq_iff.mp (display_eq_iff.mp h)
  exact ⟨hregrouped.language_eq, fun _ _ _ _ => hregrouped.run_eq⟩

/-- A star between two other factors, with the concatenations in and around it grouped to the left. -/
def leftGrouped : Pattern :=
  .concatenation
    (.concatenation (.char '|')
      (.star (.concatenation (.concatenation .anyChar (.char 'é')) (.range '-' ']'))))
    (.repeated .emptyString 1 none)

def rightGrouped : Pattern :=
  .concatenation (.char '|')
    (.concatenation
      (.star (.concatenation .anyChar (.concatenation (.char 'é') (.range '-' ']'))))
      (.repeated .emptyString 1 none))

theorem display_unambiguous_grouped :
    leftGrouped ≠ rightGrouped ∧
    leftGrouped.display = "\\|(.\\u\x7be9\x7d[\\--\\]])*(())\x7b1,\x7d" ∧
    leftGrouped.display = rightGrouped.display ∧ Regrouped leftGrouped rightGrouped ∧
    leftGrouped.language = rightGrouped.language ∧
    ∃ a b, (Compiler.compile {} leftGrouped).outcome = .ok a ∧
      (Compiler.compile {} rightGrouped).outcome = .ok b ∧ ∀ text, a.run text = b.run text := by
  have hdisplay : leftGrouped.display = rightGrouped.display := by decide +kernel
  obtain ⟨htext, hsequence, hmatch⟩ := display_unambiguous leftGrouped rightGrouped
  obtain ⟨hlanguage, hrun⟩ := hmatch hdisplay
  obtain ⟨a, ha⟩ : ∃ a, (Compiler.compile {} leftGrouped).outcome = .ok a :=
    Build.exists_outcome_eq_ok (by decide +kernel)
  obtain ⟨b, hb⟩ : ∃ b, (Compiler.compile {} rightGrouped).outcome = .ok b :=
    Build.exists_outcome_eq_ok (by decide +kernel)
  exact ⟨by decide, by decide +kernel, hdisplay, hsequence.mp (htext.mp hdisplay), hlanguage,
    a, b, ha, hb, hrun _ _ a b ha hb⟩

end IntervalAutomata.Pattern
