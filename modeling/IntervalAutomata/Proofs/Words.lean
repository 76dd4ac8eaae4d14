import IntervalAutomata.Binary.Encode
import Mathlib.Data.List.Basic
import Mathlib.Data.Nat.Bitwise

/-! # Words, bits and texts are read as they were written

Bit `i` of a word comes from exactly one of its four bytes, and flag `i` of a byte from the power of two
that packing added for it; the powers added before stay below it. Padding only appends, so what is read
up to the old length does not see it, and reading a number of words never depends on what follows.
Reading loses nothing either: a byte is its eight bits, a section of whole words is its words, and a
header is its 64 bytes. -/

namespace IntervalAutomata.Binary

/-! ## Words -/

/-- Bit `i` of a word comes from one byte, and the others contribute nothing. -/
theorem getLsbD_wordOf (a b c d : UInt8) {i : Nat} (hi : i < 32) :
    (wordOf a b c d).toBitVec.getLsbD i =
      if i < 8 then a.toBitVec.getLsbD i
      else if i < 16 then b.toBitVec.getLsbD (i - 8)
      else if i < 24 then c.toBitVec.getLsbD (i - 16)
      else d.toBitVec.getLsbD (i - 24) := by
  have h8 : (8 : UInt32).toBitVec % 32 = 8#32 := rfl
  have h16 : (16 : UInt32).toBitVec % 32 = 16#32 := rfl
  have h24 : (24 : UInt32).toBitVec % 32 = 24#32 := rfl
  simp only [wordOf, UInt32.toBitVec_or, UInt32.toBitVec_shiftLeft, UInt8.toBitVec_toUInt32, h8, h16,
    h24, BitVec.getLsbD_or, BitVec.getLsbD_setWidth, BitVec.shiftLeft_eq', BitVec.getLsbD_shiftLeft,
    BitVec.toNat_ofNat, Nat.reducePow, Nat.reduceMod]
  rcases (by omega : i < 8 ∨ (8 ≤ i ∧ i < 16) ∨ (16 ≤ i ∧ i < 24) ∨ 24 ≤ i) with h | h | h | h
  all_goals grind

/-- Bit `i` of the byte that starts at bit `k`. -/
theorem getLsbD_byte (w : UInt32) {n : UInt32} {i k : Nat} (hn : n.toNat = k) (hk : k < 32)
    (hi : i < 8) : (w >>> n).toUInt8.toBitVec.getLsbD i = w.toBitVec.getLsbD (k + i) := by
  have hmod : n.toNat % 32 = k := hn ▸ Nat.mod_eq_of_lt (hn ▸ hk)
  simp [UInt32.toBitVec_shiftRight, hi, hmod]

theorem wordOf_bytes (w : UInt32) :
    wordOf w.toUInt8 (w >>> 8).toUInt8 (w >>> 16).toUInt8 (w >>> 24).toUInt8 = w := by
  refine UInt32.toBitVec_inj.mp (BitVec.eq_of_getLsbD_eq fun i hi => ?_)
  rw [getLsbD_wordOf _ _ _ _ hi]
  split
  · rename_i h
    rw [UInt32.toBitVec_toUInt8, BitVec.getLsbD_setWidth]
    simp [h]
  split
  · rw [getLsbD_byte w (k := 8) rfl (by decide) (by omega), Nat.add_sub_cancel' (by omega)]
  split
  · rw [getLsbD_byte w (k := 16) rfl (by decide) (by omega), Nat.add_sub_cancel' (by omega)]
  · rw [getLsbD_byte w (k := 24) rfl (by decide) (by omega), Nat.add_sub_cancel' (by omega)]

theorem wordBytes_wordOf (a b c d : UInt8) : wordBytes (wordOf a b c d) = [a, b, c, d] := by
  rw [wordBytes]
  simp only [List.cons.injEq, and_true]
  refine ⟨?_, ?_, ?_, ?_⟩
  all_goals refine UInt8.toBitVec_inj.mp (BitVec.eq_of_getLsbD_eq fun i hi => ?_)
  · rw [UInt32.toBitVec_toUInt8, BitVec.getLsbD_setWidth, getLsbD_wordOf _ _ _ _ (by omega)]
    simp [hi]
  · rw [getLsbD_byte _ (k := 8) rfl (by decide) hi, getLsbD_wordOf _ _ _ _ (by omega),
      if_neg (by omega), if_pos (by omega), Nat.add_sub_cancel_left]
  · rw [getLsbD_byte _ (k := 16) rfl (by decide) hi, getLsbD_wordOf _ _ _ _ (by omega),
      if_neg (by omega), if_neg (by omega), if_pos (by omega), Nat.add_sub_cancel_left]
  · rw [getLsbD_byte _ (k := 24) rfl (by decide) hi, getLsbD_wordOf _ _ _ _ (by omega),
      if_neg (by omega), if_neg (by omega), if_neg (by omega), Nat.add_sub_cancel_left]

@[simp] theorem length_wordBytes (w : UInt32) : (wordBytes w).length = 4 := rfl

@[simp] theorem length_numberBytes (n : Nat) : (numberBytes n).length = 4 := rfl

theorem words_wordBytes_append (w : UInt32) (rest : List UInt8) :
    words (wordBytes w ++ rest) = w :: words rest := by
  rw [wordBytes, List.cons_append, List.cons_append, List.cons_append, List.cons_append,
    List.nil_append, words, wordOf_bytes]

theorem words_flatMap (ns : List Nat) : words (ns.flatMap numberBytes) = ns.map UInt32.ofNat := by
  induction ns with
  | nil => rfl
  | cons n ns ih => rw [List.flatMap_cons, numberBytes, words_wordBytes_append, ih, List.map_cons]

theorem toNat_ofNat {n : Nat} (h : n < 2 ^ 32) : (UInt32.ofNat n).toNat = n :=
  UInt32.toNat_ofNat_of_lt' h

/-- Numbers of 32 bits are read back. -/
theorem numbers_flatMap {ns : List Nat} (h : ∀ n ∈ ns, n < 2 ^ 32) :
    (words (ns.flatMap numberBytes)).map UInt32.toNat = ns := by
  rw [words_flatMap, List.map_map]
  exact (List.map_congr_left fun n hn => toNat_ofNat (h n hn)).trans (List.map_id ns)

theorem length_lt_of_no_word {bytes : List UInt8}
    (h : ∀ a b c d rest, bytes = a :: b :: c :: d :: rest → False) : bytes.length < 4 := by
  match bytes with
  | [] | [_] | [_, _] | [_, _, _] => simp
  | a :: b :: c :: d :: rest => exact (h a b c d rest rfl).elim

theorem length_words (bytes : List UInt8) : (words bytes).length = bytes.length / 4 := by
  fun_induction words bytes with
  | case1 a b c d rest ih => rw [List.length_cons, ih]; simp only [List.length_cons]; omega
  | case2 bytes hshort => exact (Nat.div_eq_of_lt (length_lt_of_no_word hshort)).symm

theorem numberBytes_toNat (w : UInt32) : numberBytes w.toNat = wordBytes w := by
  rw [numberBytes, UInt32.ofNat_toNat]

/-- Whole words are written as they were read. -/
theorem flatMap_words {bytes : List UInt8} (h : bytes.length % 4 = 0) :
    ((words bytes).map UInt32.toNat).flatMap numberBytes = bytes := by
  fun_induction words bytes with
  | case1 a b c d rest ih =>
    rw [List.map_cons, List.flatMap_cons, numberBytes_toNat, wordBytes_wordOf, ih]
    · rfl
    · simp only [List.length_cons] at h
      omega
  | case2 bytes hshort =>
    have hlt := length_lt_of_no_word hshort
    rw [List.eq_nil_of_length_eq_zero (by omega : bytes.length = 0)]
    rfl

/-! ## Padding -/

theorem le_alignUp (n : Nat) : n ≤ alignUp n := by
  unfold alignUp sectionAlign
  omega

@[simp] theorem length_pad (bytes : List UInt8) : (pad bytes).length = alignUp bytes.length := by
  rw [pad, List.length_append, List.length_replicate, Nat.add_sub_cancel' (le_alignUp _)]

theorem take_pad (bytes : List UInt8) : (pad bytes).take bytes.length = bytes := by
  rw [pad, List.take_left]

theorem getD_pad (bytes : List UInt8) (i : Nat) : (pad bytes).getD i 0 = bytes.getD i 0 := by
  rw [pad, List.getD_eq_getElem?_getD, List.getD_eq_getElem?_getD, List.getElem?_append]
  split
  · rfl
  · rename_i hi
    rw [List.getElem?_replicate, List.getElem?_eq_none (Nat.le_of_not_lt hi)]
    split <;> rfl

/-! ## Bits -/

/-- The number whose bits are the first `n` flags. -/
def packed (flag : Nat → Bool) (n : Nat) : Nat :=
  (List.range n).foldr (fun i byte => if flag i then (1 <<< i) + byte else byte) 0

theorem packed_succ (flag : Nat → Bool) (n : Nat) :
    packed flag (n + 1) = (if flag n then 2 ^ n else 0) + packed flag n := by
  have hstart : ∀ (is : List Nat) (start : Nat),
      is.foldr (fun i byte => if flag i then (1 <<< i) + byte else byte) start =
        start + is.foldr (fun i byte => if flag i then (1 <<< i) + byte else byte) 0 := by
    intro is start
    induction is with
    | nil => rfl
    | cons i is ih =>
      rw [List.foldr_cons, List.foldr_cons, ih]
      split <;> omega
  rw [packed, List.range_succ, List.foldr_append, hstart, packed]
  simp [Nat.shiftLeft_eq]

theorem packed_lt (flag : Nat → Bool) (n : Nat) : packed flag n < 2 ^ n := by
  induction n with
  | zero => exact Nat.one_pos
  | succ n ih =>
    rw [packed_succ, Nat.pow_succ]
    split <;> omega

theorem testBit_packed (flag : Nat → Bool) {i n : Nat} (hi : i < n) :
    (packed flag n).testBit i = flag i := by
  induction n with
  | zero => exact absurd hi (Nat.not_lt_zero i)
  | succ n ih =>
    rw [packed_succ]
    rcases Nat.lt_succ_iff_lt_or_eq.mp hi with hi | rfl
    · rw [← ih hi]
      split
      · exact Nat.testBit_two_pow_add_gt hi _
      · rw [Nat.zero_add]
    · have hlow := Nat.testBit_lt_two_pow (packed_lt flag i)
      split
      · rename_i hflag
        rw [Nat.testBit_two_pow_add_eq, hlow, hflag]; rfl
      · rename_i hflag
        rw [Nat.zero_add, hlow, Bool.eq_false_of_not_eq_true hflag]

theorem testBit_packByte (flag : Nat → Bool) {i : Nat} (hi : i < 8) :
    (packByte flag).toNat.testBit i = flag i := by
  have hlt : packed flag 8 < 2 ^ 8 := packed_lt flag 8
  show (UInt8.ofNat (packed flag 8)).toNat.testBit i = flag i
  rw [UInt8.toNat_ofNat_of_lt' hlt, testBit_packed flag hi]

/-- A byte is packed from its bits. -/
theorem packByte_eq_iff {flag : Nat → Bool} {byte : UInt8} :
    packByte flag = byte ↔ ∀ k < 8, flag k = byte.toNat.testBit k := by
  constructor
  · rintro rfl k hk
    exact (testBit_packByte flag hk).symm
  · intro h
    refine UInt8.toNat_inj.mp (Nat.eq_of_testBit_eq fun k => ?_)
    rcases Nat.lt_or_ge k 8 with hk | hk
    · rw [testBit_packByte flag hk, h k hk]
    · have hlarge : ∀ b : UInt8, b.toNat.testBit k = false := fun b =>
        Nat.testBit_lt_two_pow (b.toNat_lt.trans_le (Nat.pow_le_pow_right (by decide) hk))
      rw [hlarge, hlarge]

/-! ## Texts -/

private theorem toList_loop (bytes : ByteArray) (i : Nat) (r : List UInt8) :
    ByteArray.toList.loop bytes i r = r.reverse ++ bytes.data.toList.drop i := by
  fun_induction ByteArray.toList.loop bytes i r with
  | case1 i r hi ih =>
    have hlt : i < bytes.data.toList.length := hi
    have hget : bytes.get! i = bytes.data.toList[i] := by
      rw [ByteArray.get!, getElem!_pos bytes.data i hi, Array.getElem_toList]
    rw [ih, List.reverse_cons, List.append_assoc, List.drop_eq_getElem_cons hlt, hget]
    rfl
  | case2 i r hi =>
    rw [List.drop_eq_nil_of_le (by simpa using hi), List.append_nil]

theorem toList_eq (bytes : ByteArray) : bytes.toList = bytes.data.toList := toList_loop bytes 0 []

theorem toByteArray_toList (bytes : ByteArray) : bytes.toList.toByteArray = bytes := by
  rw [toList_eq]
  exact ByteArray.ext (by rw [List.data_toByteArray])

theorem fromUTF8?_toUTF8 (s : String) : String.fromUTF8? s.toUTF8.toList.toByteArray = some s := by
  rw [toByteArray_toList, String.toUTF8_eq_toByteArray, String.fromUTF8?, dif_pos s.isValidUTF8]
  rfl

theorem toUTF8_of_fromUTF8? {bytes : List UInt8} {text : String}
    (h : String.fromUTF8? bytes.toByteArray = some text) : text.toUTF8.toList = bytes := by
  rw [String.fromUTF8?] at h
  split at h
  · obtain rfl := Option.some.inj h
    rw [toList_eq]
    exact List.data_toByteArray ▸ rfl
  · cases h

/-! ## Headers -/

theorem ofFn_getD {bytes : List UInt8} {k n : Nat} (h : k + n ≤ bytes.length) :
    List.ofFn (fun i : Fin n => bytes.getD (k + i) 0) = (bytes.drop k).take n := by
  refine List.ext_getElem (by simp; omega) fun i hi hi' => ?_
  have hlt : k + i < bytes.length := by
    rw [List.length_ofFn] at hi
    omega
  rw [List.getElem_ofFn, List.getElem_take, List.getElem_drop, List.getD_eq_getElem _ _ hlt]

namespace Header

@[simp] theorem length_toBytes (h : Header) : h.toBytes.length = headerSize := by
  simp [toBytes, headerSize]

/-- Whatever follows a header, it is read as it was written. -/
theorem ofBytes_toBytes_append (h : Header) (rest : List UInt8) : ofBytes (h.toBytes ++ rest) = h := by
  cases h with
  | mk =>
    simp only [ofBytes, toBytes, wordAt, wordBytes, List.cons_append, List.nil_append,
      List.getD_cons_zero, List.getD_cons_succ, wordOf_bytes, mk.injEq, true_and]
    refine Vector.ext fun j hj => ?_
    rw [Vector.getElem_ofFn, Nat.add_comm, List.getD_eq_getElem?_getD]
    simp only [List.getElem?_cons_succ]
    rw [List.getElem?_append_left (by simpa using hj)]
    simp [hj]

theorem wordBytes_wordAt {bytes : List UInt8} {k : Nat} (h : k + 4 ≤ bytes.length) :
    wordBytes (wordAt bytes k) = (bytes.drop k).take 4 := by
  rw [wordAt, wordBytes_wordOf, ← ofFn_getD h]
  rfl

/-- A header is written as it was read. -/
theorem toBytes_ofBytes {bytes : List UInt8} (h : headerSize ≤ bytes.length) :
    (ofBytes bytes).toBytes = bytes.take headerSize := by
  have hword : ∀ k, k ≤ 60 → wordBytes (wordAt bytes k) = (bytes.drop k).take 4 := fun k hk =>
    wordBytes_wordAt (by rw [headerSize] at h; omega)
  have hreserved : (ofBytes bytes).reserved.toList = (bytes.drop 36).take 28 := by
    rw [ofBytes, Vector.toList_ofFn]
    exact ofFn_getD h
  have hsplit : ∀ m n, (bytes.drop m).take n ++ (bytes.drop (m + n)).take (64 - (m + n)) =
      (bytes.drop m).take (n + (64 - (m + n))) := fun m n => by
    rw [List.take_add, List.drop_drop]
  rw [toBytes, hreserved]
  simp only [ofBytes, hword 0 (by decide), hword 4 (by decide), hword 8 (by decide),
    hword 12 (by decide), hword 16 (by decide), hword 20 (by decide), hword 24 (by decide),
    hword 28 (by decide), hword 32 (by decide), List.append_assoc]
  rw [hsplit 32 4, hsplit 28 4, hsplit 24 4, hsplit 20 4, hsplit 16 4, hsplit 12 4, hsplit 8 4,
    hsplit 4 4, hsplit 0 4]
  rfl

end Header

end IntervalAutomata.Binary
