import IntervalAutomata.Binary.Guarded
import IntervalAutomata.Proofs.Decoding

/-! # Steps that cannot fault

A guarded computation that does not fault is a report of an ordinary one. Each guard is shown to hold
from what is known where it stands, and is then rewritten away: a subscript in range is the entry, a sum
below the limit is the sum, a cursor that has enough left gives the next bytes. Counts and lengths are
words of 32 bits, so nothing that is made of a few of them comes near the limit of 64 bits. -/

namespace IntervalAutomata.Binary.Guarded

variable {α β σ : Type} {c : Bool} {e : DecodeError} {f : Fault} {m n i : Nat} {xs : List α} {x : α}

/-! ## Reports -/

@[simp] theorem report_ok (a : α) : report (.ok a) = pure a := rfl

@[simp] theorem report_pure (a : α) : report (pure a) = pure a := rfl

theorem report_bind (y : Except DecodeError α) (g : α → Except DecodeError β) :
    report (y >>= g) = report y >>= fun a => report (g a) := by
  cases y <;> rfl

/-- What comes after a report may rely on it. -/
theorem report_congr {y : Except DecodeError α} {g g' : α → Guarded β}
    (h : ∀ a, y = .ok a → g a = g' a) : (report y >>= g) = (report y >>= g') := by
  cases y with
  | error => rfl
  | ok a => exact h a rfl

theorem require_congr {g g' : Unit → Guarded β} (h : c = true → g () = g' ()) :
    (report (require c e) >>= g) = (report (require c e) >>= g') :=
  report_congr fun _ hok => h (by cases c <;> [cases hok; rfl])

/-! ## Guards that hold -/

theorem ensure_eq (h : c = true) : ensure c f = pure () := if_pos h

theorem add_eq (h : m + n < wordLimit) : add m n = pure (m + n) := by
  rw [add, ensure_eq (decide_eq_true h), pure_bind]

theorem mul_eq (h : m * n < wordLimit) : mul m n = pure (m * n) := by
  rw [mul, ensure_eq (decide_eq_true h), pure_bind]

theorem add?_eq (h : m + n < wordLimit) : add? m n = some (m + n) := if_pos h

theorem mul?_eq (h : m * n < wordLimit) : mul? m n = some (m * n) := if_pos h

theorem get_eq (h : xs[i]? = some x) : get xs i = pure x := by
  rw [get, h]

theorem get_eq_getD (h : i < xs.length) (x : α) : get xs i = pure (xs.getD i x) := by
  rw [get_eq (List.getElem?_eq_getElem h), List.getD_eq_getElem?_getD, List.getElem?_eq_getElem h,
    Option.getD_some]

theorem getElem?_states {a : Automaton} {q : Nat} (hq : q < a.size) :
    a.states.toList[q]? = some (a.state q) := by
  rw [Array.getElem?_toList, Array.getElem?_eq_getElem hq]
  exact congrArg some (Automaton.getElem_states hq)

theorem set_eq (h : i < xs.length) : set xs i x = pure (xs.set i x) := by
  rw [set, ensure_eq (decide_eq_true h), pure_bind]

theorem slice_eq (hle : m ≤ n) (h : n ≤ xs.length) : slice xs m n = pure ((xs.take n).drop m) := by
  rw [slice, ensure_eq (by simp [hle, h]), pure_bind]

/-- Rounding a quotient up does not take more than the number itself. -/
theorem ceilDiv_eq (hn : 0 < n) (h : m + 1 < wordLimit) :
    ceilDiv m n = pure ((m + (n - 1)) / n) := by
  have hsplit : m + (n - 1) = (m % n + (n - 1)) + m / n * n := by
    have := Nat.div_add_mod' m n
    omega
  have hlt := Nat.mod_lt m hn
  have hle : m / n ≤ m := Nat.div_le_self m n
  rw [ceilDiv, hsplit, Nat.add_mul_div_right _ _ hn]
  split
  · rename_i hzero
    rw [hzero, Nat.zero_add, Nat.div_eq_of_lt (Nat.sub_one_lt_of_lt hn), Nat.zero_add]
  · have hone : (m % n + (n - 1)) / n = 1 := Nat.div_eq_of_lt_le (by omega) (by omega)
    rw [hone, Nat.add_comm 1]
    exact add_eq (by omega)

theorem alignUp_eq (h : n + sectionAlign < wordLimit) : alignUp n = pure (Binary.alignUp n) := by
  have hlt : (n + (sectionAlign - 1)) / sectionAlign * sectionAlign < wordLimit :=
    (Nat.div_mul_le_self _ _).trans_lt (Nat.lt_of_le_of_lt (by omega) h)
  have hone : n + 1 < wordLimit := Nat.lt_of_le_of_lt (Nat.add_le_add_left (by decide) n) h
  rw [alignUp, ceilDiv_eq (by decide) hone, pure_bind, mul_eq hlt, Binary.alignUp]

/-! ## Words -/

variable {bytes : List UInt8} {position : Nat}

/-- The first of the words that are left. -/
theorem word_eq (bytes : List UInt8) (h : 4 ≤ bytes.length) :
    ∃ w, word (bytes.take 4) = pure w ∧ words bytes = w :: words (bytes.drop 4) := by
  match bytes, h with
  | p :: q :: r :: s :: rest, _ => exact ⟨wordOf p q r s, rfl, rfl⟩

theorem Cursor.take_eq (h : position + n ≤ bytes.length) (hlimit : bytes.length < wordLimit) :
    Cursor.take ⟨bytes, position⟩ n =
      pure ((bytes.drop position).take n, ⟨bytes, position + n⟩) := by
  have hadd : add? position n = some (position + n) := add?_eq (Nat.lt_of_le_of_lt h hlimit)
  rw [Cursor.take, hadd, Option.filter_some, if_pos (decide_eq_true h)]
  show (slice bytes position (position + n) >>= _) = _
  rw [slice_eq (Nat.le_add_right _ _) h, pure_bind, List.drop_take, Nat.add_sub_cancel_left]

theorem Cursor.word_eq (position : Nat) (h : position + 4 ≤ bytes.length)
    (hlimit : bytes.length < wordLimit) :
    ∃ w, Cursor.word ⟨bytes, position⟩ = pure (w, ⟨bytes, position + 4⟩) ∧
      words (bytes.drop position) = w :: words (bytes.drop (position + 4)) := by
  obtain ⟨w, hw, hwords⟩ := Guarded.word_eq (bytes.drop position) (by rw [List.length_drop]; omega)
  refine ⟨w, ?_, by rw [hwords, List.drop_drop]⟩
  rw [Cursor.word, Cursor.take_eq h hlimit, pure_bind]
  show (Guarded.word _ >>= _) = _
  rw [hw, pure_bind]

theorem words_drop (i : Nat) (bytes : List UInt8) :
    words (bytes.drop (i * 4)) = (words bytes).drop i := by
  induction i generalizing bytes with
  | zero => rw [Nat.zero_mul, List.drop_zero, List.drop_zero]
  | succ i ih =>
    match bytes with
    | p :: q :: r :: s :: rest =>
      rw [words, List.drop_succ_cons, ← ih, Nat.succ_mul]
      rfl
    | [] | [_] | [_, _] | [_, _, _] =>
      rw [List.drop_eq_nil_of_le (by simp only [List.length_cons, List.length_nil]; omega)]
      exact List.drop_nil.symm

theorem transitionsOf_drop (i : Nat) (ws : List UInt32) :
    transitionsOf (ws.drop (i * 3)) = (transitionsOf ws).drop i := by
  induction i generalizing ws with
  | zero => rw [Nat.zero_mul, List.drop_zero, List.drop_zero]
  | succ i ih =>
    match ws with
    | p :: q :: r :: rest =>
      rw [transitionsOf, List.drop_succ_cons, ← ih, Nat.succ_mul]
      rfl
    | [] | [_] | [_, _] =>
      rw [List.drop_eq_nil_of_le (by simp only [List.length_cons, List.length_nil]; omega)]
      exact List.drop_nil.symm

theorem Cursor.wordAt_eq (bytes : List UInt8) (position i : Nat) (h : (i + 1) * 4 ≤ bytes.length)
    (hlimit : bytes.length < wordLimit) :
    ∃ w, Cursor.wordAt ⟨bytes, position⟩ i = pure w ∧
      (words bytes).drop i = w :: (words bytes).drop (i + 1) := by
  obtain ⟨w, hw, hwords⟩ := Guarded.word_eq (bytes.drop (i * 4)) (by rw [List.length_drop]; omega)
  refine ⟨w, ?_, by rw [← words_drop, ← words_drop, hwords, List.drop_drop, Nat.succ_mul]⟩
  rw [Cursor.wordAt, mul_eq (by omega), pure_bind, add_eq (by omega), pure_bind]
  show (ensure (i * 4 + 4 ≤ bytes.length) .pastEnd >>= _) = _
  rw [ensure_eq (decide_eq_true (by omega)), pure_bind, List.drop_take, Nat.add_sub_cancel_left, hw]

theorem header_eq (h : headerSize ≤ bytes.length) :
    header (bytes.take headerSize) = pure (Header.ofBytes bytes) := by
  have hlength : (bytes.take headerSize).length = 64 := by
    rw [List.length_take, headerSize]
    exact Nat.min_eq_left h
  have hentry : ∀ i < 64, (bytes.take headerSize).getD i 0 = bytes.getD i 0 := by
    intro i hi
    rw [List.getD_eq_getElem?_getD, List.getElem?_take_of_lt (show i < headerSize from hi),
      List.getD_eq_getElem?_getD]
  have hget : ∀ i < 64, get (bytes.take headerSize) i = pure (bytes.getD i 0) := fun i hi => by
    rw [get_eq_getD (hlength.symm ▸ hi) 0, hentry i hi]
  have hreserved : ∀ i < 28, (((bytes.take headerSize).take 64).drop 36).getD i 0 =
      bytes.getD (36 + i) 0 := by
    intro i hi
    rw [List.take_of_length_le hlength.le, ← hentry _ (by omega), List.getD_eq_getElem?_getD,
      List.getElem?_drop, List.getD_eq_getElem?_getD]
  rw [header, slice_eq (by decide) hlength.ge, pure_bind, ensure_eq (by simp [hlength])]
  simp (disch := decide) only [pure_bind, hget]
  simp only [Header.ofBytes, Header.wordAt, hreserved _ (Fin.isLt _)]

theorem toNat_lt (w : UInt32) : w.toNat < 2 ^ 32 := UInt32.toNat_lt w

theorem alignUp_le (n : Nat) : Binary.alignUp n ≤ n + 3 := by
  unfold Binary.alignUp sectionAlign
  omega

/-- The parts of a body are counted in 32 bits each, which leaves room for their sum. -/
structure Small (h : Header) : Prop where
  states : h.stateCount.toNat < 2 ^ 32
  transitions : h.transitionCount.toNat < 2 ^ 32
  singleton : h.singletonLength.toNat < 2 ^ 32

theorem small (h : Header) : Small h := ⟨toNat_lt _, toNat_lt _, toNat_lt _⟩

theorem acceptSize_eq (h : Header) : acceptSize h = pure (Binary.acceptSize h) := by
  obtain ⟨hstates, -, -⟩ := small h
  rw [acceptSize, ceilDiv_eq (by decide) (by unfold wordLimit; omega), pure_bind,
    alignUp_eq (by unfold wordLimit sectionAlign; omega)]
  rfl

theorem offsetsSize_eq (h : Header) : offsetsSize h = pure (Binary.offsetsSize h) := by
  obtain ⟨hstates, -, -⟩ := small h
  rw [offsetsSize, add_eq (by unfold wordLimit; omega), pure_bind,
    mul_eq (by unfold wordLimit; omega)]
  rfl

theorem transitionsSize_eq (h : Header) :
    transitionsSize h = pure (Binary.transitionsSize h) := by
  obtain ⟨-, htransitions, -⟩ := small h
  exact mul_eq (by unfold wordLimit transitionSize; omega)

theorem singletonSize_eq (h : Header) :
    alignUp h.singletonLength.toNat = pure (Binary.alignUp h.singletonLength.toNat) := by
  obtain ⟨-, -, hsingleton⟩ := small h
  exact alignUp_eq (by unfold wordLimit sectionAlign; omega)

/-- The size of a body is far from the limit of a machine word. -/
theorem bodySize_lt (h : Header) : Binary.bodySize h < wordLimit := by
  obtain ⟨hstates, htransitions, hsingleton⟩ := small h
  have haccepts := alignUp_le ((h.stateCount.toNat + 7) / 8)
  have hknown := alignUp_le h.singletonLength.toNat
  unfold Binary.bodySize Binary.acceptSize Binary.offsetsSize Binary.transitionsSize transitionSize
    wordLimit
  omega

theorem bodySize_eq (h : Header) : bodySize h = pure (some (Binary.bodySize h)) := by
  obtain ⟨hstates, htransitions, -⟩ := small h
  have hsum := bodySize_lt h
  have hslots : add? h.stateCount.toNat 1 = some (h.stateCount.toNat + 1) :=
    add?_eq (by unfold wordLimit; omega)
  have hoffsets : mul? (h.stateCount.toNat + 1) 4 = some (Binary.offsetsSize h) :=
    mul?_eq (by unfold wordLimit; omega)
  have hrecords : mul? h.transitionCount.toNat transitionSize = some (Binary.transitionsSize h) :=
    mul?_eq (by unfold wordLimit transitionSize; omega)
  rw [Binary.bodySize] at hsum
  simp only [bodySize, acceptSize_eq, pure_bind, hslots, hoffsets, hrecords, singletonSize_eq]
  rw [add?_eq (by omega)]
  dsimp only
  rw [add?_eq (by omega)]
  dsimp only
  rw [add?_eq hsum, Binary.bodySize]

end IntervalAutomata.Binary.Guarded
