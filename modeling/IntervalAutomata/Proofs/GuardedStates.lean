import IntervalAutomata.Proofs.Guarded
import Mathlib.Data.List.TakeWhile

/-! # Building states one at a time

An automaton grows by states without transitions, and then state by state by transitions that come
after all that the state has. Such a transition is appended, and it overlaps a neighbour only if it
starts before the last one ends, so at every moment the automaton is what its states make of it, with a
truthful determinism mark. The loops over states and transitions therefore build the same automaton as
reading all states first, and stop with the same errors. -/

namespace IntervalAutomata

open Automaton

variable {done rest states : List State} {s : State} {t : Transition} {initial q : Nat}

/-! ## Adding behind the last entry -/

theorem insertAscending_of_all_lt {α : Type} {cmp : α → α → Ordering} [Std.OrientedCmp cmp] {x : α}
    {xs : List α} (h : ∀ y ∈ xs, cmp y x = .lt) : insertAscending cmp x xs = xs ++ [x] := by
  induction xs with
  | nil => rfl
  | cons y ys ih =>
    obtain ⟨hy, hys⟩ := List.forall_mem_cons.mp h
    have hgt : cmp x y = .gt := Std.OrientedCmp.gt_of_lt hy
    rw [insertAscending, hgt, List.cons_append, ← ih hys]

/-- What comes after the last entry of an ascending list comes after all of them. -/
theorem Ascends.concat {α : Type} {cmp : α → α → Ordering} [Std.TransCmp cmp] {x : α} {xs : List α}
    (hxs : Ascends cmp xs) (hlast : ∀ y, xs.getLast? = some y → cmp y x = .lt) :
    (∀ y ∈ xs, cmp y x = .lt) ∧ Ascends cmp (xs ++ [x]) := by
  have hall : ∀ y ∈ xs, cmp y x = .lt := by
    rcases List.eq_nil_or_concat' xs with rfl | ⟨init, z, rfl⟩
    · exact nofun
    · have hz : cmp z x = .lt := hlast z (by simp)
      intro y hy
      rcases List.mem_append.mp hy with hy | hy
      · exact Std.TransCmp.lt_trans ((List.pairwise_append.mp hxs).2.2 y hy z (by simp)) hz
      · rw [List.mem_singleton.mp hy]; exact hz
  refine ⟨hall, List.pairwise_append.mpr ⟨hxs, List.pairwise_singleton _ _, fun y hy z hz => ?_⟩⟩
  rw [List.mem_singleton.mp hz]
  exact hall y hy

theorem separate_append {l : List Transition} : separate (l ++ [t]) =
    (separate l && l.getLast?.all fun s => s.interval.max < t.interval.min) := by
  fun_induction separate l with
  | case1 s u rest ih =>
    rw [List.cons_append, List.cons_append, separate, ← List.cons_append, ih, List.getLast?_cons_cons,
      Bool.and_assoc]
  | case2 l h =>
    match l, h with
    | [], _ => rfl
    | [s], _ => simp [separate]
    | s :: u :: rest, h => exact (h s u rest rfl).elim

/-- A transition behind all others overlaps a neighbour unless it starts after the last one ends. -/
theorem overlapsNeighbour_eq {l : List Transition} (hlast : ∀ s ∈ l, Transition.order s t = .lt)
    (ht : t.interval.Proper) :
    (!overlapsNeighbour t l) = l.getLast?.all fun s => s.interval.max < t.interval.min := by
  have hall : ∀ s ∈ l, (Transition.order s t == .lt) = true := fun s hs => by simp [hlast s hs]
  rw [overlapsNeighbour, List.takeWhile_eq_self_iff.mpr hall,
    List.dropWhile_eq_nil_iff.mpr hall]
  cases hl : l.getLast? with
  | none => rfl
  | some s =>
    have hst := hlast s (List.mem_of_getLast? hl)
    have hle := ht.min_le_max
    have hfirst : s.interval.min ≤ t.interval.min := by
      rcases Transition.order_lt_iff.mp hst with h | ⟨h, -⟩
      · rcases Interval.order_lt_iff.mp h with h | ⟨h, -⟩ <;> omega
      · rw [h]
    simp only [Option.any_some, List.head?_nil, Option.any_none, Bool.or_false, Option.all_some]
    rw [Bool.eq_iff_iff, Bool.not_eq_true', Interval.overlaps_eq_false_iff, decide_eq_true_eq]
    omega

namespace Automaton

/-- Adding the greatest transition of a state appends it. -/
theorem addTransition_ofStates (hlast : ∀ u ∈ s.transitions, Transition.order u t = .lt)
    (ht : t.interval.Proper) :
    (ofStates (done ++ s :: rest) initial).addTransition done.length t.interval t.target =
      ofStates (done ++ { s with transitions := s.transitions ++ [t] } :: rest) initial := by
  have hstate : (ofStates (done ++ s :: rest) initial).state done.length = s := by
    simp [state_ofStates]
  have hnew : s.transitions.contains t = false := by
    rw [← Bool.not_eq_true, List.contains_iff_mem]
    exact fun hmem => ne_of_lt_cmp (hlast t hmem) rfl
  rw [addTransition, transitions, hstate]
  rw [hnew, if_neg Bool.false_ne_true]
  simp only [ofStates, forget, List.modify_toArray, modify_append_cons,
    insertAscending_of_all_lt hlast, List.all_append, List.all_cons, separate_append,
    overlapsNeighbour_eq hlast ht, mk.injEq, true_and, and_true]
  ac_rfl

theorem addState_ofStates (accept : Bool) :
    (ofStates states initial).addState accept =
      ofStates (states ++ [{ accept := accept }]) initial := by
  simp [addState, forget, ofStates, separate]

theorem setInitial_ofStates : (ofStates states initial).setInitial q = ofStates states q := rfl

end Automaton

namespace Binary.Guarded

variable {h : Header} {accepts table records : List UInt8} {a : Automaton} {n : Nat}

/-! ## Accept bits -/

/-- A state that does not move yet. -/
def still (accepts : List UInt8) (q : Nat) : State := { accept := acceptBit accepts q }

theorem addState_eq (hq : q < n) (hsize : (n + 7) / 8 ≤ accepts.length) : addState accepts q a =
    if q = 0 then do
      ensure (0 < a.size) .outOfRange
      return a.setAccept 0 (acceptBit accepts 0)
    else pure (a.addState (acceptBit accepts q)) := by
  rw [addState, get_eq_getD (by omega) 0, pure_bind,
    ensure_eq (decide_eq_true (Nat.mod_lt q (by decide))), pure_bind]
  split
  · rename_i hzero
    rw [hzero]; rfl
  · rfl

/-- After the first state all others are appended. -/
theorem loop_addState {rounds : Nat} (hq : 0 < q) (hn : q + rounds ≤ n)
    (hsize : (n + 7) / 8 ≤ accepts.length) :
    loop (addState accepts) rounds q (ofStates ((List.range q).map (still accepts)) 0) =
      pure (ofStates ((List.range (q + rounds)).map (still accepts)) 0) := by
  induction rounds generalizing q with
  | zero => rfl
  | succ rounds ih =>
    have hnext : (List.range q).map (still accepts) ++ [{ accept := acceptBit accepts q }] =
        (List.range (q + 1)).map (still accepts) := by
      rw [List.range_succ, List.map_append]
      rfl
    rw [loop, addState_eq (by omega : q < n) hsize, if_neg (Nat.ne_of_gt hq), pure_bind,
      addState_ofStates, hnext, ih (Nat.succ_pos q) (by omega), Nat.succ_add_eq_add_succ]

theorem addStates_eq (hn : 0 < n) (hsize : (n + 7) / 8 ≤ accepts.length) :
    loop (addState accepts) n 0 .new = pure (ofStates ((List.range n).map (still accepts)) 0) := by
  obtain ⟨n, rfl⟩ := Nat.exists_eq_add_of_le' hn
  have hfirst : addState accepts 0 .new =
      pure (ofStates ((List.range 1).map (still accepts)) 0) := by
    rw [addState_eq hn hsize, if_pos rfl]
    rfl
  rw [loop, hfirst, pure_bind, loop_addState (Nat.succ_pos 0) (by omega) hsize, Nat.add_comm]

/-! ## Transitions -/

/-- Transitions between existing states are added without a fault. -/
theorem addTransition_eq (hq : q < a.size) (ht : t.target < a.size) :
    addTransition a q t = pure (a.addTransition q t.interval t.target) := by
  have hplace : ((a.transitions q).takeWhile fun s => Transition.order s t == .lt).length ≤
      (a.transitions q).length := (List.takeWhile_sublist _).length_le
  rw [addTransition, ensure_eq (decide_eq_true ht), pure_bind, get_eq (getElem?_states hq),
    pure_bind]
  dsimp only
  rw [← transitions, ensure_eq (decide_eq_true hplace), pure_bind]
  split
  · rename_i hold
    rw [Automaton.addTransition, if_pos hold]
  · split
    · rename_i hprevious
      simp only [Bool.and_eq_true, decide_eq_true_eq] at hprevious
      rw [get_eq (List.getElem?_eq_getElem (by omega)), pure_bind]
    · rfl

/-- The transitions from position `p` on. -/
def recordsFrom (records : List UInt8) (p : Nat) : List Transition :=
  transitionsOf (words (records.drop (p * transitionSize)))

variable {p i : Nat}

/-- Reading a transition checks it and adds it. -/
theorem readTransition_eq (last : Option Transition)
    (hp : (p + 1) * transitionSize ≤ records.length) (hlimit : records.length < wordLimit) :
    ∃ t, recordsFrom records p = t :: recordsFrom records (p + 1) ∧
      readTransition h q i ⟨⟨records, p * transitionSize⟩, last, a⟩ =
        report (checkTransitions h.stateCount.toNat last [t]) >>= fun _ =>
          addTransition a q t >>= fun b => pure ⟨⟨records, (p + 1) * transitionSize⟩, some t, b⟩ := by
  rw [Nat.succ_mul] at hp
  unfold transitionSize at hp
  obtain ⟨min, hmin, hwords⟩ := Cursor.word_eq (p * 12) (by omega) hlimit
  obtain ⟨max, hmax, hwords'⟩ := Cursor.word_eq (p * 12 + 4) (by omega) hlimit
  obtain ⟨target, htarget, hwords''⟩ := Cursor.word_eq (p * 12 + 4 + 4) (by omega) hlimit
  refine ⟨⟨⟨min.toNat, max.toNat⟩, target.toNat⟩, ?_, ?_⟩
  · rw [recordsFrom, recordsFrom, transitionSize, hwords, hwords', hwords'', transitionsOf,
      Nat.succ_mul]
  · simp only [readTransition, transitionSize, hmin, hmax, htarget, pure_bind, checkTransitions,
      report_bind, bind_assoc, report_ok, Nat.succ_mul]
    refine require_congr fun hproper => require_congr fun _ => require_congr fun _ => ?_
    rw [ensure_eq ((Bool.and_eq_true ..).mp hproper).1, pure_bind]

/-- Reading transitions checks them in a row and appends them to their state. -/
theorem loop_readTransition (done rest : List State) (initial rounds : Nat) (accept : Bool)
    (ts : List Transition)
    (hsize : done.length + 1 + rest.length = h.stateCount.toNat)
    (hrecords : (p + rounds) * transitionSize ≤ records.length) (hlimit : records.length < wordLimit)
    (hascends : Ascends Transition.order ts) :
    loop (readTransition h done.length) rounds i
        ⟨⟨records, p * transitionSize⟩, ts.getLast?, ofStates (done ++ ⟨accept, ts⟩ :: rest) initial⟩ =
      report (checkTransitions h.stateCount.toNat ts.getLast? ((recordsFrom records p).take rounds)) >>=
        fun _ => pure ⟨⟨records, (p + rounds) * transitionSize⟩,
          (ts ++ (recordsFrom records p).take rounds).getLast?,
          ofStates (done ++ ⟨accept, ts ++ (recordsFrom records p).take rounds⟩ :: rest) initial⟩ := by
  induction rounds generalizing p i ts with
  | zero => simp [loop, checkTransitions]
  | succ rounds ih =>
    have hnext : (p + 1) * transitionSize ≤ records.length :=
      (Nat.mul_le_mul_right _ (by omega)).trans hrecords
    have hsum : p + (rounds + 1) = p + 1 + rounds := by omega
    obtain ⟨t, hrow, hread⟩ := readTransition_eq (a := ofStates (done ++ ⟨accept, ts⟩ :: rest) initial)
      (h := h) (q := done.length) (i := i) ts.getLast? hnext hlimit
    rw [loop, hread, hrow, List.take_succ_cons]
    simp only [checkTransitions, report_bind, bind_assoc, report_ok, pure_bind]
    refine require_congr fun hproper => require_congr fun htarget => require_congr fun hlast => ?_
    simp only [Bool.and_eq_true, decide_eq_true_eq, Option.all_eq_true, beq_iff_eq]
      at hproper htarget hlast
    obtain ⟨hall, hconcat⟩ := hascends.concat hlast
    have hadd : addTransition (ofStates (done ++ ⟨accept, ts⟩ :: rest) initial) done.length t =
        pure (ofStates (done ++ ⟨accept, ts ++ [t]⟩ :: rest) initial) := by
      rw [addTransition_eq, addTransition_ofStates hall ⟨hproper.1, hproper.2⟩]
      all_goals rw [size_ofStates, List.length_append, List.length_cons]; omega
    have hrest := ih (p := p + 1) (i := i + 1) _ (hsum ▸ hrecords) hconcat
    rw [List.getLast?_concat] at hrest
    rw [hadd, pure_bind, hrest, hsum]
    simp only [List.append_assoc, List.singleton_append]

/-! ## States -/

theorem recordsFrom_eq (records : List UInt8) (p : Nat) :
    recordsFrom records p = (transitionsOf (words records)).drop p := by
  rw [recordsFrom, transitionSize, ← transitionsOf_drop, ← words_drop, Nat.mul_assoc]

/-- Reading the states goes through their offsets and ends with the last one. -/
theorem loop_readState (accepts : List UInt8) (done : List State) (initial rounds previous : Nat)
    (hrounds : done.length + rounds = h.stateCount.toNat)
    (htable : table.length = Binary.offsetsSize h)
    (hrecords : records.length = Binary.transitionsSize h)
    (hprevious : previous ≤ h.transitionCount.toNat) :
    (loop (readState h ⟨table, 0⟩) rounds done.length ⟨previous, ⟨records, previous * transitionSize⟩,
        ofStates (done ++ (List.range' done.length rounds).map (still accepts)) initial⟩ >>= fun p =>
      report (require (p.previous = h.transitionCount.toNat) (.corrupt .transitionCount)) >>= fun _ =>
        pure p.automaton) =
      report (Binary.readStates h accepts done.length previous (recordsFrom records previous)
        (((words table).map UInt32.toNat).drop (done.length + 1))) >>= fun states =>
          pure (ofStates (done ++ states) initial) := by
  obtain ⟨hstates, htransitions, -⟩ := small h
  unfold Binary.offsetsSize at htable
  have hlength : (words table).length = h.stateCount.toNat + 1 := by
    rw [length_words, htable]
    omega
  -- `done` has its transitions already, the other states wait for theirs without moving
  induction rounds generalizing done previous with
  | zero =>
    rw [List.drop_eq_nil_of_le (by rw [List.length_map]; omega), Binary.readStates]
    simp only [loop, pure_bind, List.range'_zero, List.map_nil, List.append_nil, report_bind,
      bind_assoc]
    exact require_congr fun _ => by rw [report_pure, pure_bind, List.append_nil]
  | succ rounds ih =>
    obtain ⟨stop, hstop, hdrop⟩ := Cursor.wordAt_eq table 0 (done.length + 1) (by omega)
      (by unfold wordLimit; omega)
    have hdrop : ((words table).map UInt32.toNat).drop (done.length + 1) =
        stop.toNat :: ((words table).map UInt32.toNat).drop (done.length + 1 + 1) := by
      rw [← List.map_drop, hdrop, List.map_cons, List.map_drop]
    rw [loop, readState, add_eq (by unfold wordLimit; omega), pure_bind, hstop, pure_bind, hdrop,
      Binary.readStates]
    simp only [report_bind, bind_assoc]
    refine require_congr fun hle => ?_
    simp only [Bool.and_eq_true, decide_eq_true_eq] at hle
    have hlimit : records.length < wordLimit := by
      rw [hrecords]
      unfold Binary.transitionsSize transitionSize wordLimit
      omega
    have hown := loop_readTransition (h := h) (p := previous) (i := 0) done
      ((List.range' (done.length + 1) rounds).map (still accepts)) initial (stop.toNat - previous)
      (acceptBit accepts done.length) [] (by rw [List.length_map, List.length_range']; omega)
      (by rw [hrecords]; exact Nat.mul_le_mul_right _ (by omega)) hlimit List.Pairwise.nil
    have hsum : previous + (stop.toNat - previous) = stop.toNat := by omega
    have hrest := ih (done ++ [⟨acceptBit accepts done.length,
      (recordsFrom records previous).take (stop.toNat - previous)⟩]) stop.toNat
      (by rw [List.length_append, List.length_singleton]; omega) hle.2
    rw [List.getLast?_nil, hsum, List.nil_append] at hown
    rw [List.length_append, List.length_singleton] at hrest
    rw [List.range'_succ, List.map_cons, still, hown]
    simp only [bind_assoc, pure_bind]
    refine report_congr fun _ _ => ?_
    rw [recordsFrom_eq, List.drop_drop, hsum]
    simp only [recordsFrom_eq, List.append_assoc, List.singleton_append] at hrest
    rw [hrest]
    simp only [report_pure, pure_bind]

/-- **States are read without a fault**, and what is built are the states that were read. -/
theorem readStates_eq {known : List UInt8} (hs : Sections h accepts table records known)
    (hinitial : h.initial < h.stateCount) :
    readStates h accepts table records =
      report (require (((words table).map UInt32.toNat).head? == some 0) (.corrupt .firstOffset)) >>=
        fun _ => report (Binary.readStates h accepts 0 0 (transitionsOf (words records))
          ((words table).map UInt32.toNat).tail) >>= fun states =>
            pure (ofStates states h.initial.toNat) := by
  obtain ⟨hbits, htable, hrecords, -⟩ := hs
  have hlt : h.initial.toNat < h.stateCount.toNat := hinitial
  have hstates := toNat_lt h.stateCount
  have hslots : table.length = (h.stateCount.toNat + 1) * 4 := htable
  obtain ⟨first, hfirst, hdrop⟩ := Cursor.wordAt_eq table 0 0 (by omega)
    (by unfold wordLimit; omega)
  have hhead : ((words table).map UInt32.toNat).head? = some first.toNat := by
    rw [List.drop_zero] at hdrop
    rw [hdrop]
    rfl
  have hroom : (h.stateCount.toNat + 7) / 8 ≤ accepts.length := hbits ▸ le_alignUp _
  rw [readStates, addStates_eq (Nat.zero_lt_of_lt hlt) hroom, pure_bind, size_ofStates,
    List.length_map, List.length_range, ensure_eq (decide_eq_true hlt), pure_bind, hfirst, pure_bind,
    setInitial_ofStates, hhead]
  have hzero : (some first.toNat == some 0) = (first.toNat == 0) := rfl
  rw [hzero]
  refine require_congr fun hfirst => ?_
  have hread := loop_readState accepts [] h.initial.toNat h.stateCount.toNat 0 (Nat.zero_add _) htable
    hrecords (Nat.zero_le _)
  rw [recordsFrom_eq, List.drop_zero, List.length_nil, List.nil_append, Nat.zero_add, List.drop_one,
    Nat.zero_mul, ← List.range_eq_range'] at hread
  rw [beq_iff_eq.mp hfirst]
  exact hread

end Binary.Guarded

end IntervalAutomata
