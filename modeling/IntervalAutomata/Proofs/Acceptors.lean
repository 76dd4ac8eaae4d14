import IntervalAutomata.Automaton.Acceptors
import IntervalAutomata.Proofs.Canonical
import IntervalAutomata.Proofs.Running

/-! # Basic acceptors are canonical

Apart from the two that accept nothing and everything, a basic acceptor is a line of states with one
interval between each and the next (`Spells`). It accepts from a state on the words that follow the
rest of the line, and those differ in length from state to state. -/

namespace IntervalAutomata.Automaton

variable {a : Automaton} {labels : List Interval} {c k : Nat} {w : List Nat}

/-- A line of states: each but the last one moves to the next on its label, and the last accepts. -/
structure Spells (a : Automaton) (labels : List Interval) : Prop where
  size_eq : a.size = labels.length + 1
  initial_eq : a.initial = 0
  transitions_eq : ∀ k, a.transitions k = (labels[k]?.map fun i => ⟨i, k + 1⟩).toList
  isAccepting_iff : ∀ k, a.isAccepting k = true ↔ k = labels.length

theorem Spells.step_iff (h : a.Spells labels) {q : Nat} :
    a.Step k c q ↔ ∃ i, labels[k]? = some i ∧ i.contains c = true ∧ q = k + 1 := by
  rw [Step, h.transitions_eq]
  simp only [Option.mem_toList, Option.map_eq_some_iff]
  constructor
  · rintro ⟨_, ⟨i, hi, rfl⟩, hc, rfl⟩
    exact ⟨i, hi, hc, rfl⟩
  · rintro ⟨i, hi, hc, rfl⟩
    exact ⟨_, ⟨i, hi, rfl⟩, hc, rfl⟩

/-- What is accepted follows the rest of the line. -/
theorem Spells.mem_residual_iff (h : a.Spells labels) :
    w ∈ a.residual k ↔ k ≤ labels.length ∧ List.Forall₂ (·.contains · = true) (labels.drop k) w := by
  induction w generalizing k with
  | nil =>
    rw [nil_mem_residual, h.isAccepting_iff, List.forall₂_nil_right_iff, List.drop_eq_nil_iff]
    omega
  | cons c w ih =>
    simp only [cons_mem_residual, h.step_iff, ih]
    rcases Nat.lt_or_ge k labels.length with hk | hk
    · rw [List.drop_eq_getElem_cons hk, List.forall₂_cons, List.getElem?_eq_getElem hk]
      constructor
      · intro ⟨_, ⟨i, hi, hc, rfl⟩, hle, hw⟩
        exact ⟨Nat.le_of_lt hk, Option.some.inj hi ▸ hc, hw⟩
      · rintro ⟨-, hc, hw⟩
        exact ⟨k + 1, ⟨_, rfl, hc, rfl⟩, hk, hw⟩
    · rw [List.drop_eq_nil_of_le hk, List.getElem?_eq_none hk]
      simp

theorem Spells.mem_language_iff (h : a.Spells labels) :
    w ∈ a.language ↔ List.Forall₂ (·.contains · = true) labels w := by
  rw [language, h.initial_eq, h.mem_residual_iff, List.drop_zero, and_iff_right (Nat.zero_le _)]

theorem Spells.valid (h : a.Spells labels) (hp : ∀ i ∈ labels, i.Proper) : a.Valid := by
  have hmem : ∀ {k t}, t ∈ a.transitions k → ∃ i, labels[k]? = some i ∧ t = ⟨i, k + 1⟩ := by
    intro k t ht
    rw [h.transitions_eq] at ht
    cases hk : labels[k]? with
    | none => rw [hk] at ht; cases ht
    | some i => rw [hk] at ht; exact ⟨i, rfl, List.mem_singleton.mp ht⟩
  refine ⟨?_, fun k t ht => ?_, fun k => ?_, fun k t ht => ?_⟩
  · rw [h.initial_eq, h.size_eq]
    exact Nat.succ_pos _
  · obtain ⟨i, hi, rfl⟩ := hmem ht
    rw [h.size_eq]
    exact Nat.succ_lt_succ (List.getElem?_eq_some_iff.mp hi).1
  · rw [h.transitions_eq]
    cases labels[k]? with
    | none => exact List.Pairwise.nil
    | some i => exact List.pairwise_singleton _ _
  · obtain ⟨i, hi, rfl⟩ := hmem ht
    exact hp i (List.mem_of_getElem? hi)

/-- The labels say everything about the states. -/
theorem Spells.states_eq {b : Automaton} (h : a.Spells labels) (h' : b.Spells labels) :
    a.states = b.states := by
  refine Array.ext (h.size_eq.trans h'.size_eq.symm) fun k hk hk' => ?_
  have haccept : a.isAccepting k = b.isAccepting k :=
    Bool.eq_iff_iff.mpr ((h.isAccepting_iff k).trans (h'.isAccepting_iff k).symm)
  have htransitions : a.transitions k = b.transitions k :=
    (h.transitions_eq k).trans (h'.transitions_eq k).symm
  rw [getElem_states, getElem_states]
  exact congrArg₂ State.mk haccept htransitions

theorem breadthFirst_line {rows : Nat → List Nat} {n : Nat} (h : ∀ k < n, rows k = [k + 1])
    (hlast : rows n = []) : BreadthFirst rows (n + 1) := by
  have hknown : ∀ k ≤ n, known rows k = k + 1 := by
    intro k hk
    induction k with
    | zero => rfl
    | succ k ih =>
      rw [known, ih (Nat.le_of_succ_le hk), h k hk]
      exact Nat.max_eq_right (Nat.le_succ _)
  refine ⟨fun k hk => ?_, fun k hk => ?_, ?_⟩
  · rcases Nat.lt_or_eq_of_le (Nat.le_of_lt_succ hk) with hk | rfl
    · rw [hknown k (Nat.le_of_lt hk), h k hk]
      exact ⟨Nat.le_refl _, trivial⟩
    · rw [hlast]
      trivial
  · rw [hknown k (Nat.le_of_lt_succ hk)]
    exact Nat.lt_succ_self k
  · rw [known, hknown n (Nat.le_refl n), hlast, grow_nil]

/-- The least word that follows a line. -/
theorem forall₂_mins (hp : ∀ i ∈ labels, i.Proper) :
    List.Forall₂ (·.contains · = true) labels (labels.map (·.min)) := by
  induction labels with
  | nil => exact .nil
  | cons i labels ih =>
    exact .cons (hp i (by simp)).contains_min (ih fun j hj => hp j (by simp [hj]))

theorem Spells.canonical (h : a.Spells labels) (hp : ∀ i ∈ labels, i.Proper) : a.Canonical := by
  have hword : ∀ {k}, k < a.size → (labels.drop k).map (·.min) ∈ a.residual k := by
    intro k hk
    rw [h.size_eq] at hk
    exact h.mem_residual_iff.mpr ⟨by omega, forall₂_mins fun i hi => hp i (List.mem_of_mem_drop hi)⟩
  have hsingle : ∀ k, Apart (a.transitions k) ∧ Joined (a.transitions k) := by
    intro k
    rw [h.transitions_eq]
    cases labels[k]? with
    | none => exact ⟨List.Pairwise.nil, List.Pairwise.nil⟩
    | some i => exact ⟨List.pairwise_singleton _ _, List.pairwise_singleton _ _⟩
  refine ⟨h.valid hp, h.initial_eq, fun k => (hsingle k).1, fun k => (hsingle k).2, ?_, ?_, ?_⟩
  · rw [h.size_eq]
    refine breadthFirst_line (fun k hk => ?_) ?_
    · rw [targets, h.transitions_eq, List.getElem?_eq_getElem hk]
      rfl
    · rw [targets, h.transitions_eq, List.getElem?_eq_none (Nat.le_refl _)]
      rfl
  · -- words that are accepted from different states differ in length
    intro p hp' q hq' heq
    have hw := hword hp'
    rw [heq, h.mem_residual_iff] at hw
    have hlength := hw.2.length_eq
    rw [List.length_map, List.length_drop, List.length_drop] at hlength
    rw [h.size_eq] at hp' hq'
    omega
  · exact .inr fun q hq => ⟨_, hword hq⟩

/-! ## The acceptors -/

theorem spells_emptyString : emptyString.Spells [] where
  size_eq := rfl
  initial_eq := rfl
  transitions_eq k := by cases k <;> rfl
  isAccepting_iff k := by cases k <;> simp [isAccepting, state, emptyString]

theorem spells_interval (i : Interval) : (interval i).Spells [i] where
  size_eq := rfl
  initial_eq := rfl
  transitions_eq k := by
    match k with
    | 0 => rfl
    | 1 => rfl
    | k + 2 => rfl
  isAccepting_iff k := by
    match k with
    | 0 => simp [isAccepting, state, interval]
    | 1 => simp [isAccepting, state, interval]
    | k + 2 => simp [isAccepting, state, interval]

theorem length_chain (first : Nat) (cs : List Char) : (chain first cs).length = cs.length + 1 := by
  induction cs generalizing first with
  | nil => rfl
  | cons c cs ih => rw [chain, List.length_cons, List.length_cons, ih]

theorem getElem?_chain (first : Nat) (cs : List Char) (k : Nat) : ((chain first cs)[k]?).getD {} =
    { accept := decide (k = cs.length)
      transitions := (cs[k]?.map fun c => ⟨.single c.toNat, first + k + 1⟩).toList } := by
  induction cs generalizing first k with
  | nil => cases k <;> simp [chain]
  | cons c cs ih =>
    cases k with
    | zero => simp [chain]
    | succ k =>
      rw [chain, List.getElem?_cons_succ, ih]
      simp [Nat.add_right_comm, Nat.add_assoc]

theorem spells_string (text : String) :
    (string text).Spells (text.toList.map fun c => .single c.toNat) := by
  have hstate : ∀ k, (string text).state k =
      { accept := decide (k = text.toList.length)
        transitions := (text.toList[k]?.map fun c => ⟨.single c.toNat, k + 1⟩).toList } := by
    intro k
    have := getElem?_chain 0 text.toList k
    rw [Nat.zero_add] at this
    rw [← this, state, string, Array.getD_eq_getD_getElem?, List.getElem?_toArray]
  refine ⟨?_, rfl, fun k => ?_, fun k => ?_⟩
  · rw [List.length_map]
    exact length_chain 0 _
  · rw [transitions, hstate, List.getElem?_map, Option.map_map]
    rfl
  · rw [isAccepting, hstate, List.length_map, decide_eq_true_eq]

theorem proper_single (c : Char) : (Interval.single c.toNat).Proper :=
  ⟨Nat.le_refl _, toNat_le_maxSymbol c⟩

theorem contains_single {c d : Nat} : (Interval.single c).contains d = true ↔ d = c := by
  rw [Interval.contains_iff]
  show c ≤ d ∧ d ≤ c ↔ d = c
  omega

theorem proper_of_mem_string (text : String) :
    ∀ i ∈ text.toList.map fun c => Interval.single c.toNat, i.Proper := by
  intro i hi
  obtain ⟨c, -, rfl⟩ := List.mem_map.mp hi
  exact proper_single c

theorem canonical_empty : empty.Canonical where
  toValid := valid_empty
  initial_eq := rfl
  apart q := by rw [transitions_empty]; exact List.Pairwise.nil
  joined q := by rw [transitions_empty]; exact List.Pairwise.nil
  breadthFirst := breadthFirst_line (fun _ hk => absurd hk (Nat.not_lt_zero _)) rfl
  distinct := distinct_of_size_le_one (Nat.le_refl 1)
  live := .inl rfl

theorem canonical_emptyString : emptyString.Canonical :=
  spells_emptyString.canonical fun _ hi => nomatch hi

theorem canonical_interval {i : Interval} (hi : i.Proper) : (interval i).Canonical :=
  (spells_interval i).canonical fun _ hj => List.mem_singleton.mp hj ▸ hi

theorem canonical_string (text : String) : (string text).Canonical :=
  (spells_string text).canonical (proper_of_mem_string text)

theorem transitions_anyString (k : Nat) :
    anyString.transitions k = if k = 0 then [⟨.full, 0⟩] else [] := by
  cases k <;> rfl

theorem canonical_anyString : anyString.Canonical where
  toValid := by decide
  initial_eq := rfl
  apart k := by
    rw [transitions_anyString]
    split
    · exact List.pairwise_singleton _ _
    · exact List.Pairwise.nil
  joined k := by
    rw [transitions_anyString]
    split
    · exact List.pairwise_singleton _ _
    · exact List.Pairwise.nil
  breadthFirst := by
    have hone : known anyString.targets 1 = 1 := rfl
    refine ⟨fun k hk => ?_, fun k hk => ?_, hone⟩
    · rw [Nat.lt_one_iff.mp hk]
      exact ⟨Nat.zero_le _, trivial⟩
    · rw [Nat.lt_one_iff.mp hk]
      exact Nat.one_pos
  distinct := distinct_of_size_le_one (Nat.le_refl 1)
  live := .inr fun k hk => by
    rw [Nat.lt_one_iff.mp hk]
    exact ⟨[], nil_mem_residual.mpr rfl⟩

/-! ## Their marks -/

theorem language_string (text : String) : (string text).language = {symbols text} := by
  ext w
  rw [(spells_string text).mem_language_iff, symbols]
  show _ ↔ w = _
  induction text.toList generalizing w with
  | nil => simp
  | cons c cs ih =>
    rw [List.map_cons, List.map_cons]
    cases w with
    | nil => simp
    | cons d w => rw [List.forall₂_cons, contains_single, ih, List.cons.injEq]

theorem mem_language_interval {i : Interval} :
    w ∈ (interval i).language ↔ ∃ c, i.contains c = true ∧ w = [c] := by
  rw [(spells_interval i).mem_language_iff]
  constructor
  · intro h
    cases h with
    | cons hc h =>
      cases h with
      | nil => exact ⟨_, hc, rfl⟩
  · rintro ⟨c, hc, rfl⟩
    exact .cons hc .nil

theorem toNat_of_char? {c : Char} {n : Nat} (h : Symbol.char? n = some c) : c.toNat = n := by
  unfold Symbol.char? at h
  by_cases hvalid : n.isValidChar
  · rw [dif_pos hvalid] at h
    rw [← Option.some.inj h]
    rfl
  · rw [dif_neg hvalid] at h
    cases h

theorem wellFormed_interval {i : Interval} (hi : i.Proper) : (interval i).WellFormed := by
  refine ⟨(canonical_interval hi).toValid,
    iff_of_true rfl (canonical_interval hi).separated, fun text ht => ?_⟩
  have hsingle : i.isSingle = true ∧ ∃ c, Symbol.char? i.min = some c ∧ c.toString = text := by
    change (if i.isSingle then (Symbol.char? i.min).map Char.toString else none) = some text at ht
    split at ht
    · exact ⟨‹_›, by simpa using ht⟩
    · cases ht
  obtain ⟨heq, c, hc, rfl⟩ := hsingle
  rw [Interval.isSingle, beq_iff_eq] at heq
  have hsymbols : symbols c.toString = [i.min] := by
    rw [← toNat_of_char? hc]
    simp [symbols]
  rw [hsymbols]
  ext w
  rw [mem_language_interval]
  show _ ↔ w = [i.min]
  constructor
  · rintro ⟨d, hd, rfl⟩
    rw [Interval.contains_iff] at hd
    rw [show d = i.min by omega]
  · rintro rfl
    exact ⟨i.min, hi.contains_min, rfl⟩

theorem wellFormed_emptyString : emptyString.WellFormed := by
  refine ⟨canonical_emptyString.toValid, iff_of_true rfl canonical_emptyString.separated,
    fun text ht => ?_⟩
  rw [← Option.some.inj ht]
  ext w
  rw [spells_emptyString.mem_language_iff, List.forall₂_nil_left_iff]
  rfl

theorem wellFormed_string (text : String) : (string text).WellFormed := by
  refine ⟨(canonical_string text).toValid, iff_of_true rfl (canonical_string text).separated,
    fun t ht => ?_⟩
  rw [← Option.some.inj ht]
  exact language_string text

theorem wellFormed_anyString : anyString.WellFormed :=
  ⟨canonical_anyString.toValid, iff_of_true rfl canonical_anyString.separated, fun _ ht => nomatch ht⟩

end IntervalAutomata.Automaton
