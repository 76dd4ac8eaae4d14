import IntervalAutomata.Proofs.Arrays
import IntervalAutomata.Proofs.Paths

/-! # What a run decides

Halving search finds the first interval that does not end before the symbol, which in a list without
overlaps is the only one that can cover it. So a step of a separated automaton is its one transition, and
a walk is its one path. On any automaton a simulation enters exactly the states that a symbol leads to:
a mark stands for a state that has been entered, and after each symbol no mark is left. A run therefore
decides the language, whichever way the marks of the automaton make it go. -/

namespace IntervalAutomata

/-! ## Halving search -/

theorem bisect_eq_dropWhile {α : Type} {p : α → Bool} (fuel size : Nat) (xs : List α)
    (hfuel : size < fuel) (hmono : xs.Pairwise fun x y => p y = true → p x = true)
    (hrest : ∀ x ∈ xs.drop size, p x = false) : bisect p fuel size xs = xs.dropWhile p := by
  induction fuel generalizing size xs with
  | zero => omega
  | succ fuel ih =>
    rw [bisect.eq_def]
    dsimp only
    have hsplit := List.take_append_drop (size / 2) xs
    rw [← hsplit] at hmono
    obtain ⟨-, hupper, hcross⟩ := List.pairwise_append.mp hmono
    split
    · rename_i hsize
      cases xs with
      | nil => rfl
      | cons x rest =>
        by_cases hx : p x = true
        · have hone : size = 1 := by
            by_contra hne
            rw [show size = 0 by omega] at hrest
            rw [hrest x (by simp)] at hx
            cases hx
          subst hone
          rw [List.dropWhile_cons_of_pos hx]
          simp only [hx, if_true]
          cases rest with
          | nil => rfl
          | cons y rest => rw [List.dropWhile_cons_of_neg]; simp [hrest y (by simp)]
        · rw [List.dropWhile_cons_of_neg hx]
          simp [hx]
    · rename_i hsize
      split
      · rename_i hhead
        obtain ⟨y, hy, hpy⟩ := Option.any_eq_true _ _ |>.mp hhead
        have hylow : y ∈ xs.drop (size / 2) := List.mem_of_mem_head? hy
        rw [ih _ _ (by omega) hupper (by
          rw [List.drop_drop, show size / 2 + (size - size / 2) = size by omega]
          exact hrest)]
        conv_rhs => rw [← hsplit]
        rw [List.dropWhile_append_of_pos fun x hx => hcross x hx y hylow hpy]
      · rename_i hhead
        -- the first entry of the upper half fails, and with it all that follow
        have hfail : ∀ x ∈ xs.drop (size / 2), p x = false := by
          cases hd : xs.drop (size / 2) with
          | nil => simp
          | cons y ys =>
            have hy : p y = false := by simpa [hd] using hhead
            rw [hd] at hupper
            intro x hx
            rcases List.mem_cons.mp hx with rfl | hx
            · exact hy
            · by_contra hpx
              rw [(List.pairwise_cons.mp hupper).1 x hx (by simpa using hpx)] at hy
              cases hy
        refine ih _ _ (by omega) (hsplit ▸ hmono) fun x hx => hfail x ?_
        rw [show size - size / 2 = size / 2 + (size - size / 2 - size / 2) by omega,
          ← List.drop_drop] at hx
        exact List.mem_of_mem_drop hx

/-- The first interval that does not end before `c` is the only one that can cover it. -/
private theorem first_covering {l : List Transition} (h : Apart l) (c q : Nat) :
    (match l.dropWhile fun t => t.interval.max < c with
      | t :: _ => if t.interval.min ≤ c then some t.target else none
      | [] => none) = some q ↔ ∃ t ∈ l, t.interval.contains c = true ∧ t.target = q := by
  induction l with
  | nil => simp
  | cons t rest ih =>
    obtain ⟨ht, hrest⟩ := List.pairwise_cons.mp h
    by_cases hc : t.interval.max < c
    · rw [List.dropWhile_cons_of_pos (by simpa using hc), ih hrest, List.exists_mem_cons_iff]
      have : ¬ (t.interval.contains c = true ∧ t.target = q) := by
        rw [Interval.contains_iff]; omega
      simp only [this, false_or]
    · rw [List.dropWhile_cons_of_neg (by simpa using hc), List.exists_mem_cons_iff]
      have hlater : ¬ ∃ u ∈ rest, u.interval.contains c = true ∧ u.target = q := by
        rintro ⟨u, hu, huc, -⟩
        have := ht u hu
        rw [Interval.contains_iff] at huc
        omega
      rw [or_iff_left hlater, Interval.contains_iff]
      by_cases hmin : t.interval.min ≤ c
      · simp [hmin, Nat.le_of_not_lt hc]
      · simp [hmin]

namespace Automaton

variable {a : Automaton} {p q c d : Nat} {w : List Nat}

/-! ## Deterministic walks -/

theorem step_eq_some_iff (hapart : Apart (a.transitions p))
    (hends : ∀ t ∈ a.transitions p, t.interval.min ≤ t.interval.max) :
    a.step p c = some q ↔ a.Step p c q := by
  rw [step, State.step, bisect_eq_dropWhile _ _ _ (Nat.lt_succ_self _) _ (by simp)]
  · exact first_covering hapart c q
  · refine hapart.imp_of_mem fun {s t} _ ht hst => ?_
    simp only [decide_eq_true_eq]
    intro htc
    exact Nat.lt_of_le_of_lt (Nat.le_trans (Nat.le_of_lt hst) (hends t ht)) htc

theorem Valid.step_eq_some_iff (ha : a.Valid) (hs : a.Separated) :
    a.step p c = some q ↔ a.Step p c q :=
  Automaton.step_eq_some_iff (ha.apart hs p) fun t ht => (ha.proper p t ht).min_le_max

/-- A step takes the one transition that covers the symbol, if there is one. -/
theorem Valid.step_cases (ha : a.Valid) (hs : a.Separated) (p c : Nat) :
    (∃ t ∈ a.transitions p, t.interval.contains c = true ∧
        (∀ u ∈ a.transitions p, u.interval.contains c = true → u = t) ∧
        a.step p c = some t.target) ∨
      (∀ t ∈ a.transitions p, t.interval.contains c = false) ∧ a.step p c = none := by
  cases hstep : a.step p c with
  | some q =>
    obtain ⟨t, ht, hc, rfl⟩ := (ha.step_eq_some_iff hs).mp hstep
    exact .inl ⟨t, ht, hc, fun u hu huc => (ha.apart hs p).unique hu ht huc hc, rfl⟩
  | none =>
    refine .inr ⟨fun t ht => ?_, rfl⟩
    by_contra hc
    have hmove := (ha.step_eq_some_iff hs).mpr ⟨t, ht, Bool.not_eq_false _ ▸ hc, rfl⟩
    rw [hstep] at hmove
    cases hmove

/-- Symbols that no interval of a state tells apart lead it to the same state. -/
theorem Valid.step_eq_step (ha : a.Valid) (hs : a.Separated)
    (h : ∀ t ∈ a.transitions p, (t.interval.contains c = true ↔ t.interval.contains d = true)) :
    a.step p c = a.step p d := by
  refine Option.ext fun q => ?_
  rw [ha.step_eq_some_iff hs, ha.step_eq_some_iff hs]
  exact exists_congr fun t => and_congr_right fun ht => and_congr_left' (h t ht)

theorem walk_append (u v : List Nat) : a.walk p (u ++ v) = (a.walk p u).bind fun q => a.walk q v := by
  induction u generalizing p with
  | nil => rfl
  | cons c u ih =>
    rw [List.cons_append, walk, walk, Option.bind_assoc]
    exact Option.bind_congr fun q _ => ih

theorem walk_concat (w : List Nat) (c : Nat) :
    a.walk p (w ++ [c]) = (a.walk p w).bind fun q => a.step q c := by
  rw [walk_append]
  refine Option.bind_congr fun q _ => ?_
  rw [walk]
  cases a.step q c <;> rfl

theorem walk_eq_some_iff (hapart : ∀ p, Apart (a.transitions p))
    (hends : ∀ p, ∀ t ∈ a.transitions p, t.interval.min ≤ t.interval.max) :
    a.walk p w = some q ↔ a.Path p w q := by
  induction w generalizing p with
  | nil => simp [walk]
  | cons c w ih =>
    rw [walk, path_cons_iff, Option.bind_eq_some_iff]
    simp only [step_eq_some_iff (hapart _) (hends _), ih]

theorem Valid.walk_eq_some_iff (ha : a.Valid) (hs : a.Separated) :
    a.walk p w = some q ↔ a.Path p w q :=
  Automaton.walk_eq_some_iff (ha.apart hs) fun p t ht => (ha.proper p t ht).min_le_max

theorem walk_any_iff (hapart : ∀ p, Apart (a.transitions p))
    (hends : ∀ p, ∀ t ∈ a.transitions p, t.interval.min ≤ t.interval.max) :
    (a.walk a.initial w).any a.isAccepting = true ↔ w ∈ a.language := by
  rw [Option.any_eq_true]
  simp only [walk_eq_some_iff hapart hends]
  rfl

theorem Valid.walk_any_iff (ha : a.Valid) (hs : a.Separated) :
    (a.walk a.initial w).any a.isAccepting = true ↔ w ∈ a.language :=
  Automaton.walk_any_iff (ha.apart hs) fun p t ht => (ha.proper p t ht).min_le_max

/-! ## Sets of states -/

theorem mem_moves {active : List Nat} : q ∈ a.moves active c ↔ ∃ p ∈ active, a.Step p c q := by
  simp only [moves, List.mem_flatMap, List.mem_map, List.mem_filter, Step, and_assoc]

theorem mem_successors {active : List Nat} :
    q ∈ a.successors active c ↔ ∃ p ∈ active, a.Step p c q := by
  rw [successors, mem_ascending, mem_moves]

/-- The states in which `w` can leave the automaton when it starts in one of `active`. -/
def follow (a : Automaton) : List Nat → List Symbol → List Nat
  | active, [] => active
  | active, c :: w => a.follow (a.successors active c) w

theorem mem_follow {active : List Nat} :
    q ∈ a.follow active w ↔ ∃ p ∈ active, a.Path p w q := by
  induction w generalizing active with
  | nil => simp [follow]
  | cons c w ih =>
    simp only [follow, ih, mem_successors, path_cons_iff]
    constructor
    · intro ⟨r, ⟨p, hp, hs⟩, hr⟩
      exact ⟨p, hp, r, hs, hr⟩
    · intro ⟨p, hp, r, hs, hr⟩
      exact ⟨r, ⟨p, hp, hs⟩, hr⟩

theorem ascends_successors (a : Automaton) (active : List Nat) (c : Nat) :
    Ascends compare (a.successors active c) := ascends_ascending _

theorem follow_append (active : List Nat) (u v : List Nat) :
    a.follow active (u ++ v) = a.follow (a.follow active u) v := by
  induction u generalizing active with
  | nil => rfl
  | cons c u ih => exact ih _

theorem follow_nil (w : List Nat) : a.follow [] w = [] := by
  induction w with
  | nil => rfl
  | cons c w ih =>
    have hnone : a.successors [] c = [] :=
      List.eq_nil_iff_forall_not_mem.mpr fun q hq => by simp [mem_successors] at hq
    rw [follow, hnone, ih]

theorem ascends_follow {active : List Nat} (h : Ascends compare active) (w : List Nat) :
    Ascends compare (a.follow active w) := by
  induction w generalizing active with
  | nil => exact h
  | cons c w ih => exact ih (ascends_ascending _)

end Automaton

/-! ## Simulation

The marks only ever stand for states that have been entered, so a mark never hides a state that is
missing, and clearing the marks of the entered states clears all of them. -/

namespace Front

variable {f : Front} {p q : Nat}

structure Exact (f : Front) : Prop where
  entered : ∀ q, f.marks.getD q false = true → q ∈ f.states

structure Clear (f : Front) : Prop where
  unmarked : ∀ q, f.marks.getD q false = false

theorem lt_size_of_mark {marks : Array Bool} (h : marks.getD q false = true) : q < marks.size := by
  by_contra hout
  rw [Array.getD_eq_getD_getElem?, Array.getElem?_eq_none (Nat.le_of_not_lt hout)] at h
  cases h

theorem Exact.enter (h : f.Exact) (p : Nat) :
    (f.enter p).Exact ∧ ∀ q, q ∈ (f.enter p).states ↔ q = p ∨ q ∈ f.states := by
  rw [Front.enter]
  split
  · rename_i hmark
    refine ⟨h, fun q => ⟨.inr, ?_⟩⟩
    rintro (rfl | hq)
    · exact h.entered _ hmark
    · exact hq
  · refine ⟨⟨fun q hq => ?_⟩, fun q => List.mem_cons⟩
    dsimp only at hq
    rw [getD_setIfInBounds] at hq
    split at hq
    · rename_i heq
      exact List.mem_cons.mpr (.inl heq.1.symm)
    · exact List.mem_cons_of_mem p (h.entered q hq)

theorem Exact.foldl_enter (h : f.Exact) (targets : List Nat) :
    (targets.foldl Front.enter f).Exact ∧
      ∀ q, q ∈ (targets.foldl Front.enter f).states ↔ q ∈ targets ∨ q ∈ f.states := by
  induction targets generalizing f with
  | nil => exact ⟨h, fun q => by simp⟩
  | cons p targets ih =>
    obtain ⟨hp, hmem⟩ := h.enter p
    obtain ⟨hexact, hall⟩ := ih hp
    refine ⟨hexact, fun q => ?_⟩
    rw [List.foldl_cons, hall, hmem, List.mem_cons]
    tauto

theorem Exact.clear_unmark (h : f.Exact) : f.unmark.Clear where
  unmarked q := by
    rw [Front.unmark, getD_foldl_setIfInBounds]
    split
    · rfl
    · rename_i hout
      rw [← Bool.not_eq_true]
      intro hmark
      exact hout ⟨h.entered q hmark, lt_size_of_mark hmark⟩

end Front

namespace Automaton

variable {a : Automaton} {c : Nat} {w : List Nat} {f : Front}

/-- Between symbols the marks are clear, and the front holds what the symbol leads to. -/
theorem advance_spec (h : f.Clear) (c : Symbol) :
    (a.advance f c).Clear ∧ ∀ q, q ∈ (a.advance f c).states ↔ ∃ p ∈ f.states, a.Step p c q := by
  have hexact : ({ f with states := [] } : Front).Exact :=
    ⟨fun q hq => by rw [h.unmarked q] at hq; cases hq⟩
  obtain ⟨hentered, hmem⟩ := hexact.foldl_enter (a.moves f.states c)
  refine ⟨hentered.clear_unmark, fun q => ?_⟩
  rw [← mem_moves]
  exact (hmem q).trans (or_iff_left List.not_mem_nil)

/-- A simulation accepts what some state of the front accepts. -/
theorem simulate_iff (h : f.Clear) :
    a.simulate f w = true ↔ ∃ p ∈ f.states, w ∈ a.residual p := by
  induction w generalizing f with
  | nil => simp [simulate]
  | cons c w ih =>
    obtain ⟨hclear, hmem⟩ := advance_spec (a := a) h c
    have hnext : (∃ p ∈ f.states, c :: w ∈ a.residual p) ↔
        ∃ q ∈ (a.advance f c).states, w ∈ a.residual q := by
      simp only [cons_mem_residual, hmem]
      constructor
      · intro ⟨p, hp, q, hs, hw⟩
        exact ⟨q, ⟨p, hp, hs⟩, hw⟩
      · intro ⟨q, ⟨p, hp, hs⟩, hw⟩
        exact ⟨p, hp, q, hs, hw⟩
    rw [hnext, simulate]
    split
    · rename_i hempty
      rw [List.isEmpty_iff.mp hempty]
      simp
    · exact ih hclear

/-! ## Acceptance -/

/-- Where the mark is right, symbols are accepted along the accepting paths. -/
theorem runSymbols_iff (hapart : a.deterministic = true → ∀ p, Apart (a.transitions p))
    (hends : ∀ p, ∀ t ∈ a.transitions p, t.interval.min ≤ t.interval.max) :
    a.runSymbols w = true ↔ w ∈ a.language := by
  unfold runSymbols
  split
  · rename_i hd
    exact walk_any_iff (hapart hd) hends
  · have hclear : (⟨[a.initial], Array.replicate a.size false⟩ : Front).Clear :=
      ⟨fun q => getD_replicate a.size q false⟩
    rw [simulate_iff hclear]
    simp only [List.mem_singleton, exists_eq_left]
    rfl

theorem WellFormed.runSymbols_iff (ha : a.WellFormed) : a.runSymbols w = true ↔ w ∈ a.language :=
  Automaton.runSymbols_iff (fun hd => ha.apart (ha.separated hd)) fun p t ht =>
    (ha.proper p t ht).min_le_max

theorem symbols_injective {s t : String} (h : symbols s = symbols t) : s = t := by
  have hinj : Function.Injective Char.toNat := fun c d hcd => Char.toNat_inj.mp hcd
  exact String.toList_inj.mp (hinj.list_map h)

/-- **A run decides the language.** -/
theorem WellFormed.run_iff (ha : a.WellFormed) (text : String) :
    a.run text = true ↔ symbols text ∈ a.language := by
  unfold run
  split
  · rename_i s hs
    rw [ha.known s hs, beq_iff_eq]
    constructor
    · rintro rfl
      rfl
    · intro h
      exact (symbols_injective h).symm
  · exact ha.runSymbols_iff

end Automaton

end IntervalAutomata
