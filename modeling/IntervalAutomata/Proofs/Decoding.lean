import IntervalAutomata.Proofs.Marks
import IntervalAutomata.Proofs.Words

/-! # What a reader accepts

Each check is turned into a condition once, and reading into a conjunction of them. Offsets are the key:
as long as they ascend up to the number of transitions, dealing the transitions out to the states is the
inverse of listing them state by state. So a body is accepted exactly when its sections list some states
whose transitions fit, and then those states are what is built. The marks are compared with the
transitions last; nothing that is decoded has a false one, except that a minimal mark only promises that
no state is useless. -/

namespace IntervalAutomata.Binary

open Automaton

variable {h : Header} {bits : List UInt8} {offsets : List Nat} {ts remaining : List Transition}
variable {states : List State} {n q previous : Nat} {α β : Type} {c : Bool} {e : DecodeError}

/-! ## Checks in sequence -/

theorem bind_eq_ok {x : Except DecodeError α} {f : α → Except DecodeError β} {b : β} :
    (x >>= f) = .ok b ↔ ∃ a, x = .ok a ∧ f a = .ok b := by
  cases x with
  | error e => exact iff_of_false nofun nofun
  | ok a => exact ⟨fun h => ⟨a, rfl, h⟩, fun ⟨_, ha, h⟩ => by cases ha; exact h⟩

theorem require_bind_eq_ok {f : Unit → Except DecodeError β} {b : β} :
    (require c e >>= f) = .ok b ↔ c = true ∧ f () = .ok b := by
  cases c with
  | false => exact iff_of_false nofun nofun
  | true => exact (and_iff_right rfl).symm

/-! ## Transitions -/

/-- What is asked of the list of a state in a module of `n` states. -/
structure Admissible (n : Nat) (ts : List Transition) : Prop where
  ascends : Ascends Transition.order ts
  fits : ∀ t ∈ ts, t.target < n ∧ t.interval.Proper

theorem valid_ofStates_iff {initial : Nat} : (ofStates states initial).Valid ↔
    initial < states.length ∧ ∀ s ∈ states, Admissible states.length s.transitions := by
  rw [valid_iff, size_ofStates]
  refine and_congr_right fun _ => forall₂_congr fun s _ => ?_
  exact ⟨fun hs => ⟨hs.1, hs.2⟩, fun hs => ⟨hs.1, hs.2⟩⟩

/-- Comparing each transition with its predecessor is enough. -/
theorem checkTransitions_eq_ok_iff {last : Option Transition} : checkTransitions n last ts = .ok () ↔
    Admissible n ts ∧ ∀ s ∈ last, ∀ t ∈ ts, Transition.order s t = .lt := by
  induction ts generalizing last with
  | nil => exact iff_of_true rfl ⟨⟨List.Pairwise.nil, nofun⟩, fun _ _ => nofun⟩
  | cons t rest ih =>
    rw [checkTransitions, require_bind_eq_ok, require_bind_eq_ok, require_bind_eq_ok, ih]
    simp only [Bool.and_eq_true, decide_eq_true_eq, Option.all_eq_true, beq_iff_eq,
      Option.mem_def, Option.some.injEq, forall_eq']
    constructor
    · intro ⟨⟨hle, hmax⟩, htarget, hlast, hrest, hnext⟩
      refine ⟨⟨List.pairwise_cons.mpr ⟨hnext, hrest.ascends⟩, ?_⟩, fun s hs u hu => ?_⟩
      · exact List.forall_mem_cons.mpr ⟨⟨htarget, hle, hmax⟩, hrest.fits⟩
      · rcases List.mem_cons.mp hu with rfl | hu
        · exact hlast s hs
        · exact Std.TransCmp.lt_trans (hlast s hs) (hnext u hu)
    · intro ⟨h, hlast⟩
      obtain ⟨⟨htarget, hproper⟩, hfits⟩ := List.forall_mem_cons.mp h.fits
      obtain ⟨hnext, hascends⟩ := List.pairwise_cons.mp h.ascends
      exact ⟨⟨hproper.min_le_max, hproper.max_le⟩, htarget,
        fun s hs => hlast s hs t List.mem_cons_self, ⟨hascends, hfits⟩, hnext⟩

/-! ## States -/

theorem length_offsetsFrom (offset : Nat) (states : List State) :
    (offsetsFrom offset states).length = states.length + 1 := by
  induction states generalizing offset with
  | nil => rfl
  | cons s states ih => rw [offsetsFrom, List.length_cons, ih, List.length_cons]

theorem offsetsFrom_eq_cons (offset : Nat) (states : List State) :
    offsetsFrom offset states = offset :: (offsetsFrom offset states).tail := by
  cases states <;> rfl

/-- A state is read when its offset is in order and its transitions pass, and the rest is read then. -/
theorem readStates_cons_eq_ok_iff {stop : Nat} :
    readStates h bits q previous remaining (stop :: offsets) = .ok states ↔
      previous ≤ stop ∧ stop ≤ h.transitionCount.toNat ∧
        Admissible h.stateCount.toNat (remaining.take (stop - previous)) ∧
        ∃ rest, readStates h bits (q + 1) stop (remaining.drop (stop - previous)) offsets = .ok rest ∧
          states = ⟨acceptBit bits q, remaining.take (stop - previous)⟩ :: rest := by
  rw [readStates, require_bind_eq_ok]
  simp only [Bool.and_eq_true, decide_eq_true_eq, and_assoc]
  refine and_congr_right fun _ => and_congr_right fun _ => ?_
  rw [bind_eq_ok]
  constructor
  · intro ⟨_, hown, h⟩
    obtain ⟨rest, hrest, h⟩ := bind_eq_ok.mp h
    exact ⟨(checkTransitions_eq_ok_iff.mp hown).1, rest, hrest, (Except.ok.inj h).symm⟩
  · rintro ⟨hown, rest, hrest, rfl⟩
    exact ⟨(), checkTransitions_eq_ok_iff.mpr ⟨hown, nofun⟩, bind_eq_ok.mpr ⟨rest, hrest, rfl⟩⟩

/-- Reading states undoes listing their offsets, transitions and accept bits. -/
theorem readStates_eq_ok_iff (hcount : previous + remaining.length = h.transitionCount.toNat) :
    readStates h bits q previous remaining offsets = .ok states ↔
      offsets = (offsetsFrom previous states).tail ∧ remaining = states.flatMap (·.transitions) ∧
        (∀ s ∈ states, Admissible h.stateCount.toNat s.transitions) ∧
        ∀ i s, states[i]? = some s → s.accept = acceptBit bits (q + i) := by
  induction offsets generalizing q previous remaining states with
  | nil =>
    rw [readStates, require_bind_eq_ok, decide_eq_true_eq]
    constructor
    · intro ⟨hend, hstates⟩
      obtain rfl := Except.ok.inj hstates
      have hnil : remaining = [] := List.eq_nil_of_length_eq_zero (by omega)
      exact ⟨rfl, hnil, nofun, nofun⟩
    · rintro ⟨htail, hremaining, -⟩
      cases states with
      | nil =>
        rw [hremaining] at hcount
        exact ⟨hcount, rfl⟩
      | cons s states => cases states <;> cases htail
  | cons stop offsets ih =>
    rw [readStates_cons_eq_ok_iff]
    constructor
    · rintro ⟨hle, hmax, hown, rest, hrest, rfl⟩
      have hlength : previous + (remaining.take (stop - previous)).length = stop := by
        rw [List.length_take]; omega
      obtain ⟨hoffsets, hremaining, hadmissible, haccept⟩ :=
        (ih (by rw [List.length_drop]; omega)).mp hrest
      refine ⟨?_, ?_, List.forall_mem_cons.mpr ⟨hown, hadmissible⟩, fun i s hs => ?_⟩
      · rw [offsetsFrom, List.tail_cons, hlength, offsetsFrom_eq_cons, ← hoffsets]
      · rw [List.flatMap_cons, ← hremaining, List.take_append_drop]
      · cases i with
        | zero => cases hs; rfl
        | succ i => rw [haccept i s hs, Nat.add_right_comm]; rfl
    · intro ⟨htail, hremaining, hadmissible, haccept⟩
      cases states with
      | nil => cases htail
      | cons s states =>
        rw [offsetsFrom, List.tail_cons, offsetsFrom_eq_cons] at htail
        obtain ⟨rfl, hoffsets⟩ := List.cons.inj htail
        rw [List.flatMap_cons] at hremaining
        rw [hremaining, List.length_append] at hcount
        obtain ⟨hs, hstates⟩ := List.forall_mem_cons.mp hadmissible
        have hbit : acceptBit bits q = s.accept := (haccept 0 s rfl).symm
        rw [hremaining, Nat.add_sub_cancel_left, List.take_left, List.drop_left, hbit]
        refine ⟨Nat.le_add_right _ _, by omega, hs, states, (ih (by omega)).mpr
          ⟨hoffsets, rfl, hstates, fun i t ht => ?_⟩, rfl⟩
        rw [haccept (i + 1) t ht, Nat.add_right_comm]
        rfl

/-! ## Marks -/

variable {a b : Automaton} {singleton : List UInt8}

/-- Marks are restored as the header has them, each after its check. -/
theorem readMarks_eq_ok_iff (hnone : a.singleton = none) : readMarks h singleton a = .ok b ↔
    h.isDeterministic = a.deterministic ∧
      (h.isMinimal = true → a.deterministic = true ∧ isTrimmed a = true) ∧
      b = { a with minimal := h.isMinimal, singleton := b.singleton } ∧
      b.singleton.isSome = h.hasSingleton ∧
      ∀ text, b.singleton = some text → denotesOnly a text = true ∧
        String.fromUTF8? (singleton.take h.singletonLength.toNat).toByteArray = some text := by
  rw [readMarks, require_bind_eq_ok, require_bind_eq_ok, require_bind_eq_ok]
  simp only [beq_iff_eq, Bool.or_eq_true, Bool.not_eq_true', Automaton.setSingleton]
  refine and_congr_right fun _ => ?_
  rw [← and_assoc]
  refine and_congr ?_ ?_
  · cases h.isMinimal <;> simp
  · cases hs : h.hasSingleton with
    | false =>
      rw [if_neg Bool.false_ne_true]
      constructor
      · intro hb
        obtain rfl := Except.ok.inj hb
        exact ⟨rfl, by rw [hnone]; rfl, fun text ht => by rw [hnone] at ht; cases ht⟩
      · intro ⟨hb, hsome, _⟩
        rw [Option.isSome_eq_false_iff, Option.isNone_iff_eq_none] at hsome
        rw [hb, hsome, ← hnone]
        rfl
    | true =>
      rw [if_pos rfl]
      cases hread : String.fromUTF8? (singleton.take h.singletonLength.toNat).toByteArray with
      | none =>
        refine iff_of_false nofun fun ⟨_, hsome, hknown⟩ => ?_
        obtain ⟨text, htext⟩ := Option.isSome_iff_exists.mp hsome
        cases (hknown text htext).2
      | some read =>
        rw [require_bind_eq_ok]
        constructor
        · intro ⟨honly, hb⟩
          obtain rfl := Except.ok.inj hb
          exact ⟨rfl, rfl, fun text ht => by cases ht; exact ⟨honly, rfl⟩⟩
        · intro ⟨hb, hsome, hknown⟩
          obtain ⟨text, htext⟩ := Option.isSome_iff_exists.mp hsome
          obtain ⟨honly, hread⟩ := hknown text htext
          cases hread
          exact ⟨honly, by rw [hb, htext]; rfl⟩

/-! ## Sections -/

theorem length_lt_of_no_record {ws : List UInt32}
    (h : ∀ min max target rest, ws = min :: max :: target :: rest → False) : ws.length < 3 := by
  match ws with
  | [] | [_] | [_, _] => simp
  | min :: max :: target :: rest => exact (h min max target rest rfl).elim

theorem length_transitionsOf (ws : List UInt32) : (transitionsOf ws).length = ws.length / 3 := by
  fun_induction transitionsOf ws with
  | case1 min max target rest ih => rw [List.length_cons, ih]; simp only [List.length_cons]; omega
  | case2 ws hshort => exact (Nat.div_eq_of_lt (length_lt_of_no_record hshort)).symm

/-- The four sections of a body, in their order. -/
structure Sections (h : Header) (bits offsets transitions singleton : List UInt8) : Prop where
  length_bits : bits.length = acceptSize h
  length_offsets : offsets.length = offsetsSize h
  length_transitions : transitions.length = transitionsSize h
  length_singleton : singleton.length = alignUp h.singletonLength.toNat

theorem exists_sections {body : List UInt8} (hsize : bodySize h = body.length) :
    ∃ bits offsets transitions singleton, body = bits ++ (offsets ++ (transitions ++ singleton)) ∧
      Sections h bits offsets transitions singleton := by
  rw [bodySize] at hsize
  refine ⟨body.take (acceptSize h), (body.drop (acceptSize h)).take (offsetsSize h),
    ((body.drop (acceptSize h)).drop (offsetsSize h)).take (transitionsSize h),
    ((body.drop (acceptSize h)).drop (offsetsSize h)).drop (transitionsSize h), ?_, ?_⟩
  · simp only [List.take_append_drop]
  · constructor <;> simp only [List.length_take, List.length_drop] <;> omega

/-- A body that is read has the size that the header claims. -/
theorem exists_sections_of_readBody {body : List UInt8} (hok : readBody h body = .ok b) :
    ∃ bits offsets transitions singleton, body = bits ++ (offsets ++ (transitions ++ singleton)) ∧
      Sections h bits offsets transitions singleton := by
  simp only [readBody, require_bind_eq_ok, decide_eq_true_eq] at hok
  exact exists_sections hok.2.1

variable {accepts table records known : List UInt8}

theorem Sections.length_records (hs : Sections h accepts table records known) :
    0 + (transitionsOf (words records)).length = h.transitionCount.toNat := by
  rw [length_transitionsOf, length_words, hs.length_transitions, transitionsSize, transitionSize]
  omega

/-- What the sections say has to fit the header and describe the states. -/
theorem Sections.readBody_eq_ok_iff (hs : Sections h accepts table records known) :
    readBody h (accepts ++ (table ++ (records ++ known))) = .ok b ↔
      h.hasKnownFlags = true ∧ h.stateCount ≠ 0 ∧ h.initial < h.stateCount ∧
        (h.hasSingleton = true ∨ h.singletonLength = 0) ∧
        ∃ states, (words table).map UInt32.toNat = offsetsFrom 0 states ∧
          transitionsOf (words records) = states.flatMap (·.transitions) ∧
          (∀ s ∈ states, Admissible h.stateCount.toNat s.transitions) ∧
          (∀ i s, states[i]? = some s → s.accept = acceptBit accepts i) ∧
          readMarks h known (ofStates states h.initial.toNat) = .ok b := by
  have hcount := hs.length_records
  obtain ⟨haccepts, htable, hrecords, hknown⟩ := hs
  have hsize : bodySize h = (accepts ++ (table ++ (records ++ known))).length := by
    simp only [bodySize, List.length_append]
    omega
  have htables : ∀ states, (words table).map UInt32.toNat = offsetsFrom 0 states ↔
      ((words table).map UInt32.toNat).head? = some 0 ∧
        ((words table).map UInt32.toNat).tail = (offsetsFrom 0 states).tail := by
    intro states
    rw [offsetsFrom_eq_cons]
    cases (words table).map UInt32.toNat <;> simp
  simp only [readBody, require_bind_eq_ok, List.splitAt_eq, ← haccepts, List.take_left,
    List.drop_left, ← htable, ← hrecords, decide_eq_true_eq, hsize, true_and, bne_iff_ne, beq_iff_eq,
    Bool.or_eq_true]
  simp only [bind_eq_ok, readStates_eq_ok_iff hcount, htables, Nat.zero_add, and_assoc,
    exists_and_left]

theorem Sections.length_states (hs : Sections h accepts table records known) {states : List State}
    (htable : ((words table).map UInt32.toNat).tail = (offsetsFrom 0 states).tail) :
    states.length = h.stateCount.toNat := by
  have := congrArg List.length htable
  rw [List.length_tail, List.length_tail, List.length_map, length_words, hs.length_offsets,
    offsetsSize, length_offsetsFrom] at this
  omega

/-! ## Modules -/

variable {hash : Hash} {bytes : List UInt8}

theorem decode_eq_ok_iff : decode hash bytes = .ok b ↔
    headerSize ≤ bytes.length ∧ (Header.ofBytes bytes).hasMagic = true ∧
      (Header.ofBytes bytes).hasVersion = true ∧
      (Header.ofBytes bytes).totalSize.toNat = bytes.length ∧
      hash (bytes.drop headerSize) = (Header.ofBytes bytes).checksum ∧
      readBody (Header.ofBytes bytes) (bytes.drop headerSize) = .ok b := by
  simp only [decode, require_bind_eq_ok, decide_eq_true_eq]

/-- **Whatever is decoded is well-formed**, and a minimal mark is only found where no state is
useless. -/
theorem wellFormed_of_decode (hok : decode hash bytes = .ok b) :
    b.WellFormed ∧ (b.minimal = true → b.deterministic = true ∧ (b.Trimmed ∨ Bare b)) := by
  obtain ⟨hsize, -, -, htotal, -, hbody⟩ := decode_eq_ok_iff.mp hok
  obtain ⟨accepts, table, records, known, heq, hs⟩ := exists_sections_of_readBody hbody
  rw [heq, hs.readBody_eq_ok_iff] at hbody
  obtain ⟨-, -, hinitial, -, states, htable, -, hadmissible, -, hmarks⟩ := hbody
  have hlength := hs.length_states (congrArg List.tail htable)
  have hvalid : (ofStates states (Header.ofBytes bytes).initial.toNat).Valid :=
    valid_ofStates_iff.mpr ⟨hlength ▸ hinitial, fun s hs => hlength ▸ hadmissible s hs⟩
  obtain ⟨-, hminimal, hb, -, hdenotes⟩ := (readMarks_eq_ok_iff rfl).mp hmarks
  have hwell : b.WellFormed := (wellFormed_ofStates hvalid).congr
    (congrArg Automaton.states hb).symm (congrArg Automaton.initial hb).symm
    (congrArg Automaton.deterministic hb).symm fun text ht =>
      (denotesOnly_iff hvalid text).mp (hdenotes text ht).1
  refine ⟨hwell, fun hmark => ?_⟩
  rw [hb] at hmark
  obtain ⟨hdet, htrim⟩ := hminimal hmark
  refine ⟨by rw [hb]; exact hdet, (isTrimmed_iff hwell.toValid).mp ?_⟩
  rw [hb]
  exact htrim

end IntervalAutomata.Binary
