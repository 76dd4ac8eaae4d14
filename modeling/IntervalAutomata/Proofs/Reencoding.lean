import IntervalAutomata.Proofs.RoundTrip

/-! # Encoding undoes decoding

A module has some places that no check looks at and no automaton remembers: the reserved bytes of its
header, the accept bits behind those of the last state, and what stands behind the singleton up to the
next word. Everything else that is accepted has one spelling. The offsets have to be the ones that the
transitions of the states add up to, the flags are no more than the marks, and the sections are read
word by word without loss. So encoding gives the module back with zeros in those places, which are
compared bit by bit. -/

namespace IntervalAutomata.Binary

open Automaton

variable {hash : Hash} {h : Header} {a : Automaton} {bytes xs ys : List UInt8} {i j k : Nat}

/-! ## Spare places -/

/-- Whether bit `k` of byte `j` of a body comes after the accept bits of all states, in their section,
or after the singleton. -/
def spare (h : Header) (j k : Nat) : Bool :=
  (j < acceptSize h && h.stateCount.toNat ≤ 8 * j + k) ||
    acceptSize h + offsetsSize h + transitionsSize h + h.singletonLength.toNat ≤ j

/-- The part of a body that starts at byte `j`, with zeros in the spare places. -/
def blankFrom (h : Header) (j : Nat) (part : List UInt8) : List UInt8 :=
  part.mapIdx fun i byte => packByte fun k => !spare h (j + i) k && byte.toNat.testBit k

/-- The module with zeros in the spare places of its body and in the reserved bytes of its header, and
with the checksum that belongs to that. -/
def blank (hash : Hash) (bytes : List UInt8) : List UInt8 :=
  let body := blankFrom (Header.ofBytes bytes) 0 (bytes.drop headerSize)
  bytes.take 8 ++ wordBytes (hash body) ++ (bytes.drop 12).take 24 ++ List.replicate 28 0 ++ body

/-- Whether bit `k` of byte `i` of a module stands in the checksum, a reserved byte or a spare place. -/
def Loose (h : Header) (i k : Nat) : Prop :=
  8 ≤ i ∧ i < 12 ∨ 36 ≤ i ∧ i < headerSize ∨ headerSize ≤ i ∧ spare h (i - headerSize) k = true

/-! ## Bits of bytes -/

def bitAt (bytes : List UInt8) (i k : Nat) : Bool := (bytes.getD i 0).toNat.testBit k

theorem acceptBit_eq (bits : List UInt8) (hk : k < 8) : acceptBit bits (8 * i + k) = bitAt bits i k := by
  have hbyte : (8 * i + k) / 8 = i := by omega
  have hbit : (8 * i + k) % 8 = k := by omega
  rw [acceptBit, hbyte, hbit, bitAt]

/-- Bytes are equal when their bits are. -/
theorem eq_of_bitAt (hlength : xs.length = ys.length)
    (h : ∀ i < xs.length, ∀ k < 8, bitAt xs i k = bitAt ys i k) : xs = ys := by
  refine List.ext_getElem hlength fun i hx hy => ?_
  have hbits := h i hx
  simp only [bitAt, List.getD_eq_getElem _ _ hx, List.getD_eq_getElem _ _ hy] at hbits
  have hself : packByte (fun k => ys[i].toNat.testBit k) = xs[i] :=
    packByte_eq_iff.mpr fun k hk => (hbits k hk).symm
  exact hself.symm.trans (packByte_eq_iff.mpr fun _ _ => rfl)

@[simp] theorem length_blankFrom : (blankFrom h j xs).length = xs.length := List.length_mapIdx

theorem bitAt_blankFrom (hk : k < 8) :
    bitAt (blankFrom h j xs) i k = (!spare h (j + i) k && bitAt xs i k) := by
  simp only [bitAt, blankFrom, List.getD_eq_getElem?_getD, List.getElem?_mapIdx]
  cases xs[i]? with
  | none => simp
  | some byte => exact testBit_packByte _ hk

theorem blankFrom_append :
    blankFrom h j (xs ++ ys) = blankFrom h j xs ++ blankFrom h (j + xs.length) ys := by
  rw [blankFrom, List.mapIdx_append]
  simp only [blankFrom, Nat.add_assoc, Nat.add_comm xs.length]

theorem blankFrom_eq_self (h' : ∀ i < xs.length, ∀ k < 8, spare h (j + i) k = false) :
    blankFrom h j xs = xs := by
  refine eq_of_bitAt length_blankFrom fun i hi k hk => ?_
  rw [length_blankFrom] at hi
  rw [bitAt_blankFrom hk, h' i hi k hk]
  rfl

/-! ## Sections -/

theorem bitAt_accepts (a : Automaton) (hk : k < 8) :
    bitAt (accepts a) i k = a.isAccepting (8 * i + k) := by
  rcases Nat.lt_or_ge (8 * i + k) a.size with hlt | hge
  · rw [← acceptBit_eq _ hk, acceptBit_accepts hlt]
  · have hreject : a.isAccepting (8 * i + k) = false :=
      Bool.eq_false_iff.mpr fun htrue => Nat.not_lt_of_le hge (lt_of_isAccepting htrue)
    rw [hreject, bitAt, accepts, getD_pad, acceptBytes, List.getD_eq_getElem?_getD, List.getElem?_map]
    rcases Nat.lt_or_ge i ((a.size + 7) / 8) with hi | hi
    · rw [List.getElem?_range hi]
      exact (testBit_packByte _ hk).trans hreject
    · rw [List.getElem?_eq_none (by simpa using hi)]
      exact Nat.zero_testBit k

section

variable {bits offsets rows known : List UInt8}

theorem accepts_eq_blankFrom (hs : Sections h bits offsets rows known)
    (hsize : a.size = h.stateCount.toNat)
    (haccept : ∀ q < a.size, a.isAccepting q = acceptBit bits q) :
    accepts a = blankFrom h 0 bits := by
  have hlength : (accepts a).length = bits.length := by
    rw [length_accepts, hsize, hs.length_bits, acceptSize]
  refine eq_of_bitAt (hlength.trans length_blankFrom.symm) fun i hi k hk => ?_
  have hin : i < acceptSize h := by rwa [hlength, hs.length_bits] at hi
  have hout : ¬ acceptSize h + offsetsSize h + transitionsSize h + h.singletonLength.toNat ≤ i := by
    omega
  have hspare : spare h (0 + i) k = decide (a.size ≤ 8 * i + k) := by
    rw [Nat.zero_add, spare, decide_eq_true hin, decide_eq_false hout, Bool.true_and, Bool.or_false,
      hsize]
  rw [bitAt_blankFrom hk, bitAt_accepts a hk, hspare]
  rcases Nat.lt_or_ge (8 * i + k) a.size with hlt | hge
  · rw [haccept _ hlt, acceptBit_eq _ hk, decide_eq_false (Nat.not_le_of_lt hlt)]
    rfl
  · rw [decide_eq_true hge]
    exact Bool.eq_false_iff.mpr fun htrue => Nat.not_lt_of_le hge (lt_of_isAccepting htrue)

theorem table_eq (hs : Sections h bits offsets rows known)
    (hoffsets : (words offsets).map UInt32.toNat = offsetsFrom 0 a.states.toList) :
    table a = offsets := by
  rw [table, ← hoffsets, flatMap_words]
  rw [hs.length_offsets, offsetsSize, Nat.mul_mod_left]

theorem flatMap_transitionsOf {ws : List UInt32} (h : ws.length % 3 = 0) :
    (transitionsOf ws).flatMap numbersOf = ws.map UInt32.toNat := by
  fun_induction transitionsOf ws with
  | case1 min max target rest ih =>
    rw [List.flatMap_cons, ih]
    · rfl
    · simp only [List.length_cons] at h
      omega
  | case2 ws hshort =>
    have hlt := length_lt_of_no_record hshort
    rw [List.eq_nil_of_length_eq_zero (by omega : ws.length = 0)]
    rfl

theorem records_eq (hs : Sections h bits offsets rows known)
    (hrows : transitionsOf (words rows) = allTransitions a) : records a = rows := by
  have hlength := hs.length_transitions
  rw [transitionsSize, transitionSize] at hlength
  rw [records, ← hrows, flatMap_transitionsOf, flatMap_words]
  · omega
  · rw [length_words]
    omega

/-- Without a singleton there are no bytes of one, and with one they are its text. -/
theorem singletonBytes_eq (hclaimed : h.hasSingleton = true ∨ h.singletonLength = 0)
    (hsome : a.singleton.isSome = h.hasSingleton)
    (htext : ∀ text, a.singleton = some text →
      String.fromUTF8? (known.take h.singletonLength.toNat).toByteArray = some text) :
    singletonBytes a = known.take h.singletonLength.toNat := by
  rw [singletonBytes]
  cases hsingleton : a.singleton with
  | some text => exact toUTF8_of_fromUTF8? (htext text hsingleton)
  | none =>
    rw [hsingleton] at hsome
    obtain hclaimed | hzero := hclaimed
    · rw [hclaimed] at hsome
      cases hsome
    · rw [hzero]
      rfl

theorem pad_eq_blankFrom (hs : Sections h bits offsets rows known)
    (hbytes : singletonBytes a = known.take h.singletonLength.toNat) :
    pad (singletonBytes a) =
      blankFrom h (acceptSize h + offsetsSize h + transitionsSize h) known := by
  have hle : h.singletonLength.toNat ≤ known.length := hs.length_singleton ▸ le_alignUp _
  have hlength : (singletonBytes a).length = h.singletonLength.toNat := by
    rw [hbytes, List.length_take, Nat.min_eq_left hle]
  refine eq_of_bitAt ?_ fun i _ k hk => ?_
  · rw [length_pad, length_blankFrom, hlength, hs.length_singleton]
  have hspare : spare h (acceptSize h + offsetsSize h + transitionsSize h + i) k =
      decide (h.singletonLength.toNat ≤ i) := by
    rw [spare, Bool.eq_iff_iff]
    simp only [Bool.or_eq_true, Bool.and_eq_true, decide_eq_true_eq]
    omega
  rw [bitAt_blankFrom hk, hspare, bitAt, getD_pad]
  rcases Nat.lt_or_ge i h.singletonLength.toNat with hlt | hge
  · rw [decide_eq_false (Nat.not_le_of_lt hlt), hbytes, List.getD_eq_getElem?_getD,
      List.getElem?_take_of_lt hlt, ← List.getD_eq_getElem?_getD]
    rfl
  · rw [decide_eq_true hge, List.getD_eq_default _ _ (hlength.trans_le hge)]
    exact Nat.zero_testBit k

/-- **A body is written as it was read**, with zeros in its spare places. -/
theorem body_eq_blankFrom (hs : Sections h bits offsets rows known)
    (hsize : a.size = h.stateCount.toNat)
    (haccept : ∀ q < a.size, a.isAccepting q = acceptBit bits q)
    (hoffsets : (words offsets).map UInt32.toNat = offsetsFrom 0 a.states.toList)
    (hrows : transitionsOf (words rows) = allTransitions a)
    (hbytes : singletonBytes a = known.take h.singletonLength.toNat) :
    body a = blankFrom h 0 (bits ++ (offsets ++ (rows ++ known))) := by
  have hbetween : ∀ j, acceptSize h ≤ j → j < acceptSize h + offsetsSize h + transitionsSize h →
      ∀ k, spare h j k = false := by
    intro j hle hlt k
    rw [spare, Bool.or_eq_false_iff, Bool.and_eq_false_iff, decide_eq_false_iff_not,
      decide_eq_false_iff_not, decide_eq_false_iff_not]
    exact ⟨.inl (Nat.not_lt_of_le hle), by omega⟩
  obtain ⟨hbits, hofs, hrws, -⟩ := id hs
  have hmiddle : blankFrom h (acceptSize h) (offsets ++ rows) = offsets ++ rows := by
    refine blankFrom_eq_self fun i hi k _ => hbetween _ (Nat.le_add_right _ _) ?_ k
    rw [List.length_append] at hi
    omega
  have hstart : acceptSize h + (offsets ++ rows).length =
      acceptSize h + offsetsSize h + transitionsSize h := by
    rw [List.length_append]
    omega
  rw [body_eq, accepts_eq_blankFrom hs hsize haccept, table_eq hs hoffsets, records_eq hs hrows,
    pad_eq_blankFrom hs hbytes, blankFrom_append, hbits, Nat.zero_add, ← List.append_assoc offsets,
    ← List.append_assoc offsets, blankFrom_append, hmiddle, hstart]

end

/-! ## Headers -/

/-- Known flags are the three marks and nothing else. -/
theorem flags_of_known {f : UInt32} (hf : f &&& ~~~knownFlags = 0) : f =
    (if f &&& deterministicFlag != 0 then deterministicFlag else 0) |||
      (if f &&& minimalFlag != 0 then minimalFlag else 0) |||
      (if f &&& singletonFlag != 0 then singletonFlag else 0) := by
  have hlow : f.toNat < 8 := by
    refine Nat.lt_pow_two_of_testBit (n := 3) _ fun i hi => ?_
    rcases Nat.lt_or_ge i 32 with hlt | hge
    · have hbit := congrArg (fun w : UInt32 => w.toBitVec.getLsbD i) hf
      have hknown : knownFlags.toBitVec.getLsbD i = false := by
        have hsmall : knownFlags.toBitVec.toNat < 2 ^ 3 := by decide
        exact Nat.testBit_lt_two_pow (hsmall.trans_le (Nat.pow_le_pow_right (by decide) hi))
      simp only [UInt32.toBitVec_and, UInt32.toBitVec_not, BitVec.getLsbD_and, BitVec.getLsbD_not,
        hknown, decide_eq_true hlt, Bool.not_false, Bool.and_true] at hbit
      exact hbit.trans BitVec.getLsbD_zero
    · exact Nat.testBit_lt_two_pow (f.toNat_lt.trans_le (Nat.pow_le_pow_right (by decide) hge))
  clear hf
  -- eight numbers are left
  obtain ⟨n, hn, rfl⟩ : ∃ n < 8, f = UInt32.ofNat n := ⟨f.toNat, hlow, UInt32.ofNat_toNat.symm⟩
  clear hlow
  revert n
  decide

/-- The header that an automaton gets is the one that it was read with. -/
theorem header_eq (hmagic : h.hasMagic = true) (hversion : h.hasVersion = true)
    (hknown : h.hasKnownFlags = true) (htotal : h.totalSize.toNat = headerSize + (body a).length)
    (hsize : a.size = h.stateCount.toNat) (hcount : a.transitionCount = h.transitionCount.toNat)
    (hinitial : a.initial = h.initial.toNat)
    (hlength : (singletonBytes a).length = h.singletonLength.toNat)
    (hdet : h.isDeterministic = a.deterministic) (hminimal : h.isMinimal = a.minimal)
    (hsingleton : h.hasSingleton = a.singleton.isSome) :
    header hash a = { h with checksum := hash (body a), reserved := .replicate 28 0 } := by
  have hflags : flags a = h.flags := by
    rw [flags, ← hdet, ← hminimal, ← hsingleton]
    exact (flags_of_known (beq_iff_eq.mp hknown)).symm
  simp only [header, ← htotal, hsize, hcount, hinitial, hlength, hflags, UInt32.ofNat_toNat]
  rw [Header.mk.injEq]
  exact ⟨(beq_iff_eq.mp hmagic).symm, (beq_iff_eq.mp hversion).symm, rfl, rfl, rfl, rfl, rfl, rfl, rfl,
    rfl⟩

/-- A header with another checksum and other reserved bytes. -/
theorem toBytes_replaced (h : Header) (sum : UInt32) (reserved : Vector UInt8 28) :
    { h with checksum := sum, reserved := reserved }.toBytes =
      h.toBytes.take 8 ++ wordBytes sum ++ (h.toBytes.drop 12).take 24 ++ reserved.toList := rfl

/-! ## Modules -/

theorem blank_eq (hsize : headerSize ≤ bytes.length) :
    let h := Header.ofBytes bytes
    let body := blankFrom h 0 (bytes.drop headerSize)
    blank hash bytes = { h with checksum := hash body, reserved := .replicate 28 0 }.toBytes ++ body := by
  intro h body
  have hfront : (bytes.take headerSize).take 8 = bytes.take 8 := List.take_take ..
  have hmiddle : ((bytes.take headerSize).drop 12).take 24 = (bytes.drop 12).take 24 := by
    rw [List.drop_take, List.take_take]
    rfl
  rw [toBytes_replaced, Header.toBytes_ofBytes hsize, hfront, hmiddle, Vector.toList_replicate, blank]

theorem length_blank (hsize : headerSize ≤ bytes.length) : (blank hash bytes).length = bytes.length := by
  rw [blank_eq hsize, List.length_append, Header.length_toBytes, length_blankFrom, List.length_drop,
    Nat.add_sub_cancel' hsize]

theorem getD_blank_of_lt (hsize : headerSize ≤ bytes.length) (hi : i < 8 ∨ 12 ≤ i ∧ i < 36) :
    (blank hash bytes).getD i 0 = bytes.getD i 0 := by
  rw [headerSize] at hsize
  simp only [blank, List.getD_eq_getElem?_getD, List.append_assoc]
  have hfront : (bytes.take 8).length = 8 := by rw [List.length_take]; omega
  rcases hi with hi | ⟨hi, hi'⟩
  · rw [List.getElem?_append_left (hfront.symm ▸ hi), List.getElem?_take_of_lt hi]
  · rw [List.getElem?_append_right (by omega), hfront, List.getElem?_append_right
      (by rw [length_wordBytes]; omega), length_wordBytes, List.getElem?_append_left,
      List.getElem?_take_of_lt (by omega), List.getElem?_drop]
    · congr 2
      omega
    · rw [List.length_take, List.length_drop]
      omega

theorem getD_blank_of_le (hsize : headerSize ≤ bytes.length) (hi : headerSize ≤ i) :
    (blank hash bytes).getD i 0 =
      (blankFrom (Header.ofBytes bytes) 0 (bytes.drop headerSize)).getD (i - headerSize) 0 := by
  rw [blank_eq hsize, List.getD_eq_getElem?_getD, List.getElem?_append_right
    (by rwa [Header.length_toBytes]), Header.length_toBytes, ← List.getD_eq_getElem?_getD]

/-- Elsewhere the module is as it was. -/
theorem bitAt_blank (hsize : headerSize ≤ bytes.length) (hk : k < 8)
    (hloose : ¬ Loose (Header.ofBytes bytes) i k) : bitAt (blank hash bytes) i k = bitAt bytes i k := by
  rw [Loose, not_or, not_or] at hloose
  obtain ⟨hsum, hreserved, hspare⟩ := hloose
  rcases Nat.lt_or_ge i headerSize with hi | hi
  · rw [bitAt, getD_blank_of_lt hsize (by omega), bitAt]
  · have hkept : spare (Header.ofBytes bytes) (0 + (i - headerSize)) k = false := by
      rw [Nat.zero_add]
      exact Bool.eq_false_iff.mpr fun htrue => hspare ⟨hi, htrue⟩
    rw [bitAt, getD_blank_of_le hsize hi, ← bitAt, bitAt_blankFrom hk, hkept, bitAt, bitAt,
      List.getD_eq_getElem?_getD, List.getD_eq_getElem?_getD, List.getElem?_drop,
      Nat.add_sub_cancel' hi]
    rfl

/-- Whatever is read is written with the same header and body again, up to zeros. -/
theorem written_of_readBody (hok : readBody h xs = .ok a) (hmagic : h.hasMagic = true)
    (hversion : h.hasVersion = true) (htotal : h.totalSize.toNat = headerSize + xs.length) :
    body a = blankFrom h 0 xs ∧
      header hash a = { h with checksum := hash (body a), reserved := .replicate 28 0 } := by
  obtain ⟨bits, offsets, rows, known, heq, hs⟩ := exists_sections_of_readBody hok
  rw [heq, hs.readBody_eq_ok_iff] at hok
  obtain ⟨hknown, -, -, hclaimed, states, hoffsets, hrows, -, haccept, hmarks⟩ := hok
  have hlength := hs.length_states (congrArg List.tail hoffsets)
  obtain ⟨hdet, -, ha, hsome, htext⟩ := (readMarks_eq_ok_iff rfl).mp hmarks
  have hstates : a.states = states.toArray := congrArg Automaton.states ha
  have hcount : a.size = h.stateCount.toNat := by
    rw [size, hstates, List.size_toArray, hlength]
  have hbits : ∀ q < a.size, a.isAccepting q = acceptBit bits q := by
    intro q hq
    rw [hcount, ← hlength] at hq
    have hq' := List.getElem?_eq_getElem hq
    rw [← haccept q _ hq', isAccepting, state, hstates, Array.getD_eq_getD_getElem?,
      List.getElem?_toArray, hq']
    rfl
  have htransitions : transitionsOf (words rows) = allTransitions a := by
    rw [hrows, allTransitions, hstates]
  have hsingleton := singletonBytes_eq hclaimed hsome fun text ht => (htext text ht).2
  have hbody : body a = blankFrom h 0 xs := by
    rw [heq]
    exact body_eq_blankFrom hs hcount hbits (by rw [hoffsets, hstates]) htransitions hsingleton
  refine ⟨hbody, header_eq hmagic hversion hknown ?_ hcount ?_ (congrArg Automaton.initial ha) ?_ ?_
    ?_ ?_⟩
  · rw [htotal, hbody, length_blankFrom]
  · rw [transitionCount_eq, ← htransitions, ← hs.length_records, Nat.zero_add]
  · rw [hsingleton, List.length_take, Nat.min_eq_left (hs.length_singleton ▸ le_alignUp _)]
  · exact hdet.trans (congrArg Automaton.deterministic ha).symm
  · exact (congrArg Automaton.minimal ha).symm
  · exact hsome.symm

theorem encode_eq_blank (hok : decode hash bytes = .ok a) : headerSize ≤ bytes.length ∧
    encode hash a = blank hash bytes ∧
    ∀ i k, Loose (header hash a) i k ↔ Loose (Header.ofBytes bytes) i k := by
  obtain ⟨hsize, hmagic, hversion, htotal, -, hread⟩ := decode_eq_ok_iff.mp hok
  obtain ⟨hbody, hheader⟩ := written_of_readBody hread hmagic hversion (by
    rw [htotal, List.length_drop, Nat.add_sub_cancel' hsize])
  refine ⟨hsize, by rw [blank_eq hsize, encode, hheader, hbody], fun i k => ?_⟩
  -- neither the checksum nor the reserved bytes say which places are loose
  rw [hheader]
  exact Iff.rfl

/-- **Encoding undoes decoding**, up to zeros in places that no check looks at. So modules that hold the
same automaton differ in such places only. -/
theorem encode_decode (hok : decode hash bytes = .ok a) :
    (encode hash a).length = bytes.length ∧ encode hash a = blank hash bytes ∧
      ∀ bytes', decode hash bytes' = .ok a → bytes'.length = bytes.length ∧
        ∀ i k, k < 8 → ¬ Loose (Header.ofBytes bytes) i k → bitAt bytes' i k = bitAt bytes i k := by
  obtain ⟨hsize, hblank, hloose⟩ := encode_eq_blank hok
  have hlength : (encode hash a).length = bytes.length := hblank ▸ length_blank hsize
  refine ⟨hlength, hblank, fun bytes' hok' => ?_⟩
  obtain ⟨hsize', hblank', hloose'⟩ := encode_eq_blank hok'
  refine ⟨?_, fun i k hk hfixed => ?_⟩
  · rw [← hlength, hblank', length_blank hsize']
  · have hfixed' : ¬ Loose (Header.ofBytes bytes') i k := by
      rwa [← hloose', hloose]
    rw [← bitAt_blank hsize' hk hfixed', ← hblank', hblank, bitAt_blank hsize hk hfixed]

/-- A module with something in every place that nobody reads. -/
def scribbled : List UInt8 :=
  let body : List UInt8 := [0xFE, 1, 2, 3, 0, 0, 0, 0, 1, 0, 0, 0, 1, 0, 0, 0, 97, 0, 0, 0, 97, 0, 0, 0,
    1, 0, 0, 0, 97, 7, 8, 9]
  let header : Header :=
    { checksum := checksum body
      totalSize := 96
      stateCount := 2
      transitionCount := 1
      flags := knownFlags
      singletonLength := 1
      reserved := .replicate 28 0xFF }
  header.toBytes ++ body

def oneText : Automaton := ⟨#[⟨false, [⟨.single 97, 1⟩]⟩, ⟨true, []⟩], 0, true, true, some "a"⟩

theorem encode_decode_scribbled : decode checksum scribbled = .ok oneText ∧
    encode checksum oneText = blank checksum scribbled ∧ blank checksum scribbled ≠ scribbled ∧
    decode checksum (blank checksum scribbled) = .ok oneText ∧
    ∀ i k, k < 8 → ¬ Loose (Header.ofBytes scribbled) i k →
      bitAt (blank checksum scribbled) i k = bitAt scribbled i k := by
  have hdecode : decode checksum scribbled = .ok oneText := by decide +kernel
  have hagain : decode checksum (blank checksum scribbled) = .ok oneText := by decide +kernel
  obtain ⟨-, hencode, hsame⟩ := encode_decode hdecode
  exact ⟨hdecode, hencode, by decide +kernel, hagain, (hsame _ hagain).2⟩

end IntervalAutomata.Binary
