import IntervalAutomata.Binary.Checksum
import IntervalAutomata.Proofs.Decoding

/-! # Decoding undoes encoding

Every number in a module is bounded by the length of the module or by the alphabet, so storing it in 32
bits loses nothing as long as the module itself is shorter than that. Then each section is read back as
it was written. What the checks ask of an automaton is that it is well-formed and, if it is marked
minimal, deterministic without useless states (`Admitted`); an automaton in minimal form is. -/

namespace IntervalAutomata.Binary

open Automaton

variable {a b : Automaton}

/-! ## What fits into a module -/

/-- Well-formed, no false minimal mark, and short enough for a size in 32 bits. -/
structure Storable (a : Automaton) : Prop extends WellFormed a where
  minimal_form : a.minimal = true → InMinimalForm a
  fits : headerSize + (body a).length < 2 ^ 32

/-- Nothing that the checks object to. -/
structure Admitted (a : Automaton) : Prop extends WellFormed a where
  trimmed : a.minimal = true → a.deterministic = true ∧ (a.Trimmed ∨ Bare a)
  fits : headerSize + (body a).length < 2 ^ 32

theorem Storable.admitted (ha : Storable a) : Admitted a where
  toWellFormed := ha.toWellFormed
  trimmed hmark := by
    have hform := ha.minimal_form hmark
    exact ⟨ha.deterministic_iff.mpr hform.least.1,
      (isTrimmed_iff ha.toValid).mp (hform.isTrimmed ha.toValid)⟩
  fits := ha.fits

/-- All transitions in the order of their states. -/
def allTransitions (a : Automaton) : List Transition := a.states.toList.flatMap (·.transitions)

/-- A transition as the three numbers that are stored. -/
def numbersOf (t : Transition) : List Nat := [t.interval.min, t.interval.max, t.target]

def accepts (a : Automaton) : List UInt8 := pad (acceptBytes a)

def table (a : Automaton) : List UInt8 := (offsetsFrom 0 a.states.toList).flatMap numberBytes

def records (a : Automaton) : List UInt8 := ((allTransitions a).flatMap numbersOf).flatMap numberBytes

theorem body_eq (a : Automaton) :
    body a = accepts a ++ (table a ++ (records a ++ pad (singletonBytes a))) := by
  have hbytes : transitionBytes = fun t => (numbersOf t).flatMap numberBytes := funext fun t => by
    simp [transitionBytes, numbersOf]
  have hrecords : records a =
      a.states.toList.flatMap (fun s => s.transitions.flatMap transitionBytes) := by
    simp only [records, allTransitions, List.flatMap_assoc, hbytes]
  rw [hrecords, body, accepts, table]
  simp only [List.append_assoc]

theorem transitionCount_eq (a : Automaton) : a.transitionCount = (allTransitions a).length := by
  rw [transitionCount, allTransitions]
  induction a.states.toList with
  | nil => rfl
  | cons s states ih => rw [List.foldr_cons, ih, List.flatMap_cons, List.length_append]

theorem length_flatMap_numberBytes (ns : List Nat) :
    (ns.flatMap numberBytes).length = ns.length * 4 := by
  induction ns with
  | nil => rfl
  | cons n ns ih =>
    rw [List.flatMap_cons, List.length_append, ih, length_numberBytes, List.length_cons]
    omega

theorem length_flatMap_numbersOf (ts : List Transition) :
    (ts.flatMap numbersOf).length = ts.length * 3 := by
  induction ts with
  | nil => rfl
  | cons t ts ih =>
    rw [List.flatMap_cons, List.length_append, ih, List.length_cons]
    show 3 + _ = _
    omega

theorem length_accepts (a : Automaton) : (accepts a).length = alignUp ((a.size + 7) / 8) := by
  simp [accepts, acceptBytes]

theorem length_table (a : Automaton) : (table a).length = (a.size + 1) * 4 := by
  rw [table, length_flatMap_numberBytes, length_offsetsFrom, size, Array.length_toList]

theorem length_records (a : Automaton) : (records a).length = a.transitionCount * transitionSize := by
  rw [records, length_flatMap_numberBytes, length_flatMap_numbersOf, transitionCount_eq, transitionSize]
  omega

theorem length_body (a : Automaton) : (body a).length = alignUp ((a.size + 7) / 8) +
    ((a.size + 1) * 4 + (a.transitionCount * transitionSize + alignUp (singletonBytes a).length)) := by
  rw [body_eq]
  simp only [List.length_append, length_accepts, length_table, length_records, length_pad]

theorem length_encode (hash : Hash) (a : Automaton) :
    (encode hash a).length = headerSize + (body a).length := by
  rw [encode, List.length_append, Header.length_toBytes]

/-- Everything that is counted in the header is a number of 32 bits. -/
structure Fits (a : Automaton) : Prop where
  total : headerSize + (body a).length < 2 ^ 32
  states : a.size < 2 ^ 32
  transitions : a.transitionCount < 2 ^ 32
  singleton : (singletonBytes a).length < 2 ^ 32

theorem Admitted.toFits (ha : Admitted a) : Fits a := by
  have hfits := ha.fits
  have hbody := length_body a
  have := le_alignUp (singletonBytes a).length
  rw [transitionSize] at hbody
  constructor <;> omega

/-! ## Header -/

theorem Fits.sections (hash : Hash) (hf : Fits a) :
    Sections (header hash a) (accepts a) (table a) (records a) (pad (singletonBytes a)) where
  length_bits := by
    rw [length_accepts, acceptSize]
    simp only [header, toNat_ofNat hf.states]
  length_offsets := by
    rw [length_table, offsetsSize]
    simp only [header, toNat_ofNat hf.states]
  length_transitions := by
    rw [length_records, transitionsSize]
    simp only [header, toNat_ofNat hf.transitions]
  length_singleton := by
    rw [length_pad]
    simp only [header, toNat_ofNat hf.singleton]

theorem hasKnownFlags_header (hash : Hash) (a : Automaton) : (header hash a).hasKnownFlags = true := by
  simp only [Header.hasKnownFlags, header, flags]
  generalize a.singleton.isSome = known
  cases a.deterministic <;> cases a.minimal <;> cases known <;> rfl

theorem marks_header (hash : Hash) (a : Automaton) : (header hash a).isDeterministic = a.deterministic ∧
    (header hash a).isMinimal = a.minimal ∧ (header hash a).hasSingleton = a.singleton.isSome := by
  simp only [Header.isDeterministic, Header.isMinimal, Header.hasSingleton, header, flags]
  generalize a.singleton.isSome = known
  cases a.deterministic <;> cases a.minimal <;> cases known <;> exact ⟨rfl, rfl, rfl⟩

/-! ## Sections -/

theorem acceptBit_accepts {q : Nat} (hq : q < a.size) : acceptBit (accepts a) q = a.isAccepting q := by
  have hbyte : (acceptBytes a).getD (q / 8) 0 = packByte fun i => a.isAccepting (8 * (q / 8) + i) := by
    rw [acceptBytes, List.getD_eq_getElem?_getD, List.getElem?_map, List.getElem?_range (by omega)]
    rfl
  rw [acceptBit, accepts, getD_pad, hbyte, testBit_packByte _ (Nat.mod_lt _ (by decide)),
    Nat.div_add_mod]

theorem le_of_mem_offsetsFrom {offset n : Nat} {states : List State}
    (hn : n ∈ offsetsFrom offset states) : n ≤ offset + (states.flatMap (·.transitions)).length := by
  induction states generalizing offset with
  | nil => rw [List.mem_singleton.mp hn]; exact Nat.le_add_right _ _
  | cons s states ih =>
    rw [List.flatMap_cons, List.length_append]
    rcases List.mem_cons.mp hn with rfl | hn
    · exact Nat.le_add_right _ _
    · have := ih hn
      omega

theorem Fits.numbers_table (hf : Fits a) :
    (words (table a)).map UInt32.toNat = offsetsFrom 0 a.states.toList := by
  refine numbers_flatMap fun n hn => Nat.lt_of_le_of_lt (le_of_mem_offsetsFrom hn) ?_
  rw [Nat.zero_add]
  exact (transitionCount_eq a).symm.trans_lt hf.transitions

theorem transitionsOf_words {ts : List Transition} (hts : ∀ t ∈ ts, ∀ n ∈ numbersOf t, n < 2 ^ 32) :
    transitionsOf (words ((ts.flatMap numbersOf).flatMap numberBytes)) = ts := by
  rw [words_flatMap]
  induction ts with
  | nil => rfl
  | cons t ts ih =>
    obtain ⟨ht, hts⟩ := List.forall_mem_cons.mp hts
    simp only [numbersOf, List.mem_cons, List.not_mem_nil, or_false, forall_eq_or_imp, forall_eq] at ht
    rw [List.flatMap_cons, List.map_append, numbersOf, List.map_cons, List.map_cons, List.map_cons,
      List.map_nil, List.cons_append, List.cons_append, List.cons_append, List.nil_append,
      transitionsOf, ih hts, toNat_ofNat ht.1, toNat_ofNat ht.2.1, toNat_ofNat ht.2.2]

theorem transitionsOf_records (ha : a.Valid) (hf : Fits a) :
    transitionsOf (words (records a)) = allTransitions a := by
  refine transitionsOf_words fun t ht => ?_
  obtain ⟨s, hs, ht⟩ := List.mem_flatMap.mp ht
  obtain ⟨htarget, hproper⟩ := ((valid_iff.mp ha).2 s hs).2 t ht
  have := hf.states
  have := hproper.min_le_max
  have hmax : t.interval.max ≤ 0x10FFFF := hproper.max_le
  simp only [numbersOf, List.mem_cons, List.not_mem_nil, or_false, forall_eq_or_imp, forall_eq]
  omega

/-! ## The whole module -/

/-- The states of a well-formed automaton determine its determinism mark. -/
theorem WellFormed.eq_ofStates (ha : a.WellFormed) : a =
    { ofStates a.states.toList a.initial with minimal := a.minimal, singleton := a.singleton } := by
  have hvalid : (ofStates a.states.toList a.initial).Valid := ha.toValid.congr rfl rfl
  have hdet : a.deterministic = (ofStates a.states.toList a.initial).deterministic := by
    rw [Bool.eq_iff_iff, ha.deterministic_iff, deterministic_ofStates hvalid]
    exact ⟨fun h => h.congr rfl, fun h => h.congr rfl⟩
  cases a
  exact congrArg (Automaton.mk _ _ · _ _) hdet

theorem Admitted.readMarks_header (hash : Hash) (ha : Admitted a) :
    readMarks (header hash a) (pad (singletonBytes a)) (ofStates a.states.toList a.initial) = .ok a := by
  have hvalid : (ofStates a.states.toList a.initial).Valid := ha.toValid.congr rfl rfl
  have heq := WellFormed.eq_ofStates ha.toWellFormed
  have hdet := congrArg Automaton.deterministic heq
  obtain ⟨hdeterministic, hminimal, hsingleton⟩ := marks_header hash a
  rw [readMarks_eq_ok_iff rfl, hdeterministic, hminimal, hsingleton]
  refine ⟨hdet, fun hmark => ?_, heq, rfl, fun text ht => ⟨?_, ?_⟩⟩
  · obtain ⟨hdeterministic, htrimmed⟩ := ha.trimmed hmark
    exact ⟨hdet ▸ hdeterministic, (isTrimmed_iff ha.toValid).mpr htrimmed⟩
  · rw [denotesOnly_iff hvalid, ← ha.known text ht]
    exact language_congr rfl rfl
  · have hlength : (header hash a).singletonLength.toNat = (singletonBytes a).length :=
      toNat_ofNat ha.toFits.singleton
    rw [hlength, take_pad, singletonBytes, ht]
    exact fromUTF8?_toUTF8 text

theorem Admitted.readBody_body (hash : Hash) (ha : Admitted a) :
    readBody (header hash a) (body a) = .ok a := by
  have hf := ha.toFits
  have hinitial := ha.initial_lt
  have hsize : (header hash a).stateCount.toNat = a.size := toNat_ofNat hf.states
  have hstart : (header hash a).initial.toNat = a.initial := toNat_ofNat (hinitial.trans hf.states)
  rw [body_eq, (hf.sections hash).readBody_eq_ok_iff]
  refine ⟨hasKnownFlags_header hash a, fun hzero => ?_, UInt32.lt_iff_toNat_lt.mpr ?_, ?_,
    a.states.toList, hf.numbers_table, transitionsOf_records ha.toValid hf, fun s hs => ?_,
    fun q s hs => ?_, ?_⟩
  · rw [hzero] at hsize
    exact absurd hsize.symm (Nat.ne_zero_of_lt hinitial)
  · rw [hsize, hstart]
    exact hinitial
  · rw [(marks_header hash a).2.2]
    cases hsingleton : a.singleton with
    | some text => exact .inl rfl
    | none => exact .inr (by simp [header, singletonBytes, hsingleton])
  · obtain ⟨hascends, hfits⟩ := (valid_iff.mp ha.toValid).2 s hs
    exact ⟨hascends, fun t ht => hsize.symm ▸ hfits t ht⟩
  · rw [Array.getElem?_toList] at hs
    obtain ⟨hq, rfl⟩ := Array.getElem?_eq_some_iff.mp hs
    rw [acceptBit_accepts hq, isAccepting, state, Array.getD_eq_getD_getElem?,
      Array.getElem?_eq_getElem hq]
    rfl
  · rw [hstart]
    exact ha.readMarks_header hash

theorem Admitted.decode_eq (hash : Hash) (ha : Admitted a) :
    decode hash (encode hash a) = .ok a := by
  have hbody : (encode hash a).drop headerSize = body a := List.drop_left' (Header.length_toBytes _)
  rw [decode_eq_ok_iff, hbody, length_encode, encode, Header.ofBytes_toBytes_append]
  exact ⟨Nat.le_add_right _ _, beq_self_eq_true _, beq_self_eq_true _,
    toNat_ofNat ha.toFits.total, rfl, ha.readBody_body hash⟩

theorem Storable.decode_eq (hash : Hash) (ha : Storable a) : decode hash (encode hash a) = .ok a :=
  ha.admitted.decode_eq hash

/-- **Decoding undoes encoding**, so different automata are encoded differently. -/
theorem Storable.decode_encode (hash : Hash) (ha : Storable a) : decode hash (encode hash a) = .ok a ∧
    ∀ b, Storable b → encode hash a = encode hash b → a = b := by
  refine ⟨ha.decode_eq hash, fun b hb heq => ?_⟩
  have hsame := ha.decode_eq hash
  rw [heq, hb.decode_eq hash] at hsame
  exact (Except.ok.inj hsame).symm

/-- Two states for the end of one text, and a way that leads nowhere. -/
def twoEnds : Automaton :=
  ⟨#[⟨false, [⟨.single 97, 1⟩, ⟨.single 97, 2⟩, ⟨.single 98, 3⟩]⟩, ⟨true, []⟩, ⟨true, []⟩,
    ⟨false, []⟩], 0, false, false, some "a"⟩

theorem storable_twoEnds : Storable twoEnds := by
  have hvalid : twoEnds.Valid := by decide
  refine ⟨⟨hvalid, ?_, fun text ht => ?_⟩, nofun, ?_⟩
  · exact iff_of_false Bool.false_ne_true fun h => absurd (h 0) (by decide)
  · obtain rfl := Option.some.inj ht
    exact (denotesOnly_iff hvalid "a").mp (by decide +kernel)
  · have hknown : singletonBytes twoEnds = [97] := by
      show "a".toUTF8.toList = [97]
      rw [toList_eq]
      decide
    rw [length_body, hknown]
    decide

theorem decode_encode_twoEnds : Storable twoEnds ∧
    decode checksum (encode checksum twoEnds) = .ok twoEnds ∧
    empty.minimal = true ∧ Storable empty ∧ encode checksum twoEnds ≠ encode checksum empty := by
  have hempty : Storable empty := ⟨wellFormed_empty, fun _ => .of_canonical canonical_empty, by decide⟩
  obtain ⟨hdecode, hinjective⟩ := storable_twoEnds.decode_encode checksum
  exact ⟨storable_twoEnds, hdecode, rfl, hempty, fun h => nomatch hinjective _ hempty h⟩

end IntervalAutomata.Binary
