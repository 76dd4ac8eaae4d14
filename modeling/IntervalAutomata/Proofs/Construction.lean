import IntervalAutomata.Proofs.Arrays
import IntervalAutomata.Proofs.Mutation

/-! # Automata built step by step

Constructions append states and add transitions, and each addition looks at no more than two neighbours.
What they leave behind can still be said beforehand. The lists ascend, nothing is claimed about the
language, and the determinism mark tells whether the lists overlap, as long as no interval has its ends
inverted (`Built`); so states and initial state determine everything. And the transitions added to one
state end up, with those it had, as one ascending list, whatever the order in which they came. -/

namespace IntervalAutomata

namespace Automaton

variable {a b : Automaton} {q source target : Nat} {i : Interval} {accept : Bool}
variable {done rest : List State} {s : State}

/-! ## Marks -/

/-- Nothing is claimed about the language. -/
structure Plain (a : Automaton) : Prop where
  minimal_eq : a.minimal = false
  singleton_eq : a.singleton = none

/-- What holds of an automaton from its first state on, until something is claimed about its language. -/
structure Built (a : Automaton) : Prop extends Plain a where
  ascends : ∀ p, Ascends Transition.order (a.transitions p)
  marked : (∀ p, ∀ t ∈ a.transitions p, t.interval.min ≤ t.interval.max) →
    (a.deterministic = true ↔ ∀ p, Apart (a.transitions p))

theorem Built.of_transitions (ha : a.Built) (h : ∀ p, b.transitions p = a.transitions p)
    (hdet : b.deterministic = a.deterministic) (hminimal : b.minimal = false)
    (hsingleton : b.singleton = none) : b.Built :=
  ⟨⟨hminimal, hsingleton⟩, fun p => h p ▸ ha.ascends p, by simpa only [h, hdet] using ha.marked⟩

theorem WellFormed.built (ha : a.WellFormed) (hminimal : a.minimal = false)
    (hsingleton : a.singleton = none) : a.Built :=
  ⟨⟨hminimal, hsingleton⟩, ha.ascends, fun _ => ha.deterministic_iff.trans ha.toValid.separated_iff⟩

theorem built_new : new.Built := by
  have hvalid : (ofStates [{}] 0).Valid := by decide
  exact (wellFormed_ofStates hvalid).built rfl rfl

theorem Built.addState (ha : a.Built) (accept : Bool) : (a.addState accept).Built :=
  ha.of_transitions (fun _ => transitions_addState) rfl rfl rfl

theorem Built.setInitial (ha : a.Built) (q : Nat) : (a.setInitial q).Built :=
  ha.of_transitions (fun _ => rfl) rfl rfl rfl

theorem transitions_setAccept (p : Nat) : (a.setAccept q accept).transitions p = a.transitions p := by
  have hstate : (a.setAccept q accept).state p =
      (a.states.modify q fun s => { s with accept := accept }).getD p {} := rfl
  rw [transitions, transitions, hstate, state]
  simp only [Array.getD_eq_getD_getElem?, Array.getElem?_modify]
  split
  · cases a.states[p]? <;> rfl
  · rfl

theorem Built.setAccept (ha : a.Built) (q : Nat) (accept : Bool) : (a.setAccept q accept).Built :=
  ha.of_transitions transitions_setAccept rfl rfl rfl

theorem Built.addTransition (ha : a.Built) (hsource : source < a.size) (i : Interval) (target : Nat) :
    (a.addTransition source i target).Built := by
  by_cases hmem : (⟨i, target⟩ : Transition) ∈ a.transitions source
  · rw [addTransition_of_mem hmem]
    exact ha
  obtain ⟨htransitions, -, hminimal, hsingleton, hdet⟩ := addTransition_of_not_mem hsource hmem
  refine ⟨⟨hminimal, hsingleton⟩, fun p => ?_, fun hends => ?_⟩
  · rw [htransitions]
    split
    · exact (ha.ascends source).insert _
    · exact ha.ascends p
  · have hold : ∀ p, ∀ t ∈ a.transitions p, t.interval.min ≤ t.interval.max := by
      intro p t ht
      refine hends p t ?_
      rw [htransitions]
      split
      · rename_i hp
        exact mem_insertAscending.mpr (.inr (hp ▸ ht))
      · exact ht
    have hi : i.min ≤ i.max := hends source ⟨i, target⟩ (by rw [htransitions, if_pos rfl]; simp)
    rw [apart_addTransition_iff hsource (ha.ascends source) (hold source) hi hmem, hdet,
      Bool.and_eq_true, ha.marked hold, Bool.not_eq_true']

theorem Built.addAll (ha : a.Built) (hq : q < a.size) (l : List Transition) : (a.addAll q l).Built := by
  induction l generalizing a with
  | nil => exact ha
  | cons t l ih => exact ih (ha.addTransition hq t.interval t.target) (size_addTransition.symm ▸ hq)

/-- **The states determine the rest.** -/
theorem Built.eq_ofStates (ha : a.Built)
    (hends : ∀ p, ∀ t ∈ a.transitions p, t.interval.min ≤ t.interval.max) :
    a = ofStates a.states.toList a.initial := by
  have hdet : a.deterministic = (ofStates a.states.toList a.initial).deterministic := by
    rw [Bool.eq_iff_iff, ha.marked hends, deterministic_ofStates_iff_separate]
    exact forall_congr' fun p => (separate_iff (hends p)).symm
  obtain ⟨⟨hminimal, hsingleton⟩, -, -⟩ := ha
  cases a
  obtain rfl : _ = false := hminimal
  obtain rfl : _ = none := hsingleton
  exact congrArg (Automaton.mk _ _ · _ _) hdet

/-! ## States -/

theorem toList_addState : (a.addState accept).states.toList = a.states.toList ++ [{ accept := accept }] :=
  Array.toList_push ..

theorem toList_setAccept (h : a.states.toList = done ++ s :: rest) :
    (a.setAccept done.length accept).states.toList = done ++ { s with accept := accept } :: rest := by
  rw [setAccept]
  exact (Array.toList_modify ..).trans (by rw [h, modify_append_cons])

theorem transitions_of_toList (h : a.states.toList = done ++ s :: rest) :
    a.transitions done.length = s.transitions := by
  rw [transitions, state, Array.getD_eq_getD_getElem?, ← Array.getElem?_toList, h]
  simp

theorem lt_size_of_toList (h : a.states.toList = done ++ s :: rest) : done.length < a.size := by
  rw [size, ← Array.length_toList, h]
  simp

theorem initial_addTransition : (a.addTransition source i target).initial = a.initial := by
  unfold addTransition
  dsimp only
  split <;> rfl

theorem toList_addTransition (h : a.states.toList = done ++ s :: rest)
    (hs : Ascends Transition.order s.transitions) :
    (a.addTransition done.length i target).states.toList =
      done ++ { s with transitions := insertAscending Transition.order ⟨i, target⟩ s.transitions } ::
        rest := by
  by_cases hmem : (⟨i, target⟩ : Transition) ∈ s.transitions
  · rw [addTransition_of_mem ((transitions_of_toList h).symm ▸ hmem), h,
      hs.insertAscending_of_mem hmem]
  · rw [← transitions_of_toList h, ← List.contains_iff_mem] at hmem
    rw [addTransition, if_neg hmem]
    exact (Array.toList_modify ..).trans (by rw [h, modify_append_cons])

/-- **Transitions added to one state make up one ascending list with those it had.** -/
theorem toList_addAll (h : a.states.toList = done ++ s :: rest)
    (hs : Ascends Transition.order s.transitions) (l : List Transition) :
    (a.addAll done.length l).states.toList =
      done ++ { s with transitions := insertAll Transition.order l s.transitions } :: rest := by
  induction l generalizing a s with
  | nil => exact h
  | cons t l ih => exact ih (toList_addTransition h hs) (hs.insert t)

theorem initial_addAll {l : List Transition} : (a.addAll q l).initial = a.initial := by
  induction l generalizing a with
  | nil => rfl
  | cons t l ih => exact ih.trans initial_addTransition

/-! ## Rows -/

theorem enroll_of_lt (h : target < a.size) : a.enroll target = a := if_pos h

theorem enroll_size : a.enroll a.size = a.addState false := if_neg (Nat.lt_irrefl _)

/-- What the targets of a row leave behind: a state for each number that was not known. -/
theorem foldl_enroll (ha : a.Built) {targets : List Nat} (horder : InOrder a.size targets) :
    (targets.foldl enroll a).Built ∧ (targets.foldl enroll a).initial = a.initial ∧
      (targets.foldl enroll a).states.toList =
        a.states.toList ++ List.replicate (grow a.size targets - a.size) ({} : State) := by
  induction targets generalizing a with
  | nil => simp [ha]
  | cons t targets ih =>
    obtain ⟨hle, hlater⟩ := horder
    rw [List.foldl_cons, grow_cons]
    obtain hlt | rfl := Nat.lt_or_eq_of_le hle
    · have hmax : Nat.max a.size (t + 1) = a.size := Nat.max_eq_left hlt
      rw [hmax] at hlater ⊢
      rw [enroll_of_lt hlt]
      exact ih ha hlater
    · have hmax : Nat.max a.size (a.size + 1) = a.size + 1 := Nat.max_eq_right (Nat.le_succ _)
      rw [hmax] at hlater ⊢
      rw [enroll_size]
      have hgrow : a.size + 1 ≤ grow (a.size + 1) targets := (grow_le_iff.mp (Nat.le_refl _)).1
      obtain ⟨hbuilt, hinitial, hstates⟩ := ih (ha.addState false) (size_addState.symm ▸ hlater)
      refine ⟨hbuilt, hinitial, ?_⟩
      rw [hstates, toList_addState, List.append_assoc, size_addState, List.singleton_append,
        ← List.replicate_succ, Nat.sub_add_eq, Nat.sub_add_cancel (Nat.sub_pos_of_lt hgrow)]

/-- A state can be appended before or after a transition is added elsewhere. -/
theorem addState_addTransition (hq : q < a.size) :
    (a.addTransition q i target).addState accept = (a.addState accept).addTransition q i target := by
  by_cases hmem : (⟨i, target⟩ : Transition) ∈ a.transitions q
  · rw [addTransition_of_mem hmem, addTransition_of_mem (transitions_addState.symm ▸ hmem)]
  · have hmem' : ¬ ((a.addState accept).transitions q).contains ⟨i, target⟩ = true := by
      rwa [transitions_addState, List.contains_iff_mem]
    rw [← List.contains_iff_mem] at hmem
    rw [addTransition, if_neg hmem, addTransition, if_neg hmem', transitions_addState]
    simp only [addState, forget]
    rw [modify_push hq]

theorem enroll_addTransition (hq : q < a.size) {t : Nat} :
    (a.addTransition q i target).enroll t = (a.enroll t).addTransition q i target := by
  rw [enroll, enroll, size_addTransition]
  split
  · rfl
  · exact addState_addTransition hq

theorem le_size_enroll (a : Automaton) (t : Nat) : a.size ≤ (a.enroll t).size := by
  rw [enroll]
  split
  · exact Nat.le_refl _
  · exact size_addState ▸ Nat.le_succ _

theorem foldl_enroll_addTransition {edges : List (Interval × Nat)} (hq : q < a.size) :
    edges.foldl (fun a edge => a.enroll edge.2) (a.addTransition q i target) =
      (edges.foldl (fun a edge => a.enroll edge.2) a).addTransition q i target := by
  induction edges generalizing a with
  | nil => rfl
  | cons edge edges ih =>
    rw [List.foldl_cons, List.foldl_cons, enroll_addTransition hq,
      ih (Nat.lt_of_lt_of_le hq (a.le_size_enroll edge.2))]

/-- Adding each transition as soon as its target is there comes to the same. -/
theorem addEdges_eq {row : Row Nat Interval} (hq : q < a.size) :
    a.addEdges q row = a.addRow id q row := by
  have hedges : ∀ (edges : List (Interval × Nat)) (b : Automaton), q < b.size →
      edges.foldl (fun b edge => (b.enroll edge.2).addTransition q edge.1 edge.2) b =
        (edges.foldl (fun b edge => b.enroll edge.2) b).addAll q
          (edges.map fun edge => ⟨edge.1, edge.2⟩) := by
    intro edges
    induction edges with
    | nil => exact fun _ _ => rfl
    | cons edge edges ih =>
      intro b hb
      have hb := Nat.lt_of_lt_of_le hb (b.le_size_enroll edge.2)
      rw [List.foldl_cons, ih _ (size_addTransition.symm ▸ hb), foldl_enroll_addTransition hb]
      rfl
  refine hedges row.edges (a.markRow q row) ?_
  rw [markRow]
  split
  · exact hq.trans_eq Array.size_modify.symm
  · exact hq

/-- Whatever is written down, nothing is claimed about the language. -/
theorem Plain.addEdges (ha : a.Plain) (q : Nat) (row : Row Nat Interval) : (a.addEdges q row).Plain := by
  have hmarked : (a.markRow q row).Plain := by
    rw [markRow]
    split
    · exact ⟨rfl, rfl⟩
    · exact ha
  unfold Automaton.addEdges
  refine List.foldlRecOn _ _ hmarked fun b hb edge _ => ?_
  have henrolled : (b.enroll edge.2).Plain := by
    rw [enroll]
    split
    · exact hb
    · exact ⟨rfl, rfl⟩
  unfold addTransition
  dsimp only
  split
  · exact henrolled
  · exact ⟨rfl, rfl⟩

/-! ## All rows -/

/-- The first states are finished and the numbers below `known` are states, so far without transitions. -/
structure Writing (done : List State) (known : Nat) (a : Automaton) : Prop extends Built a where
  initial_eq : a.initial = 0
  le_known : done.length ≤ known
  toList_eq : a.states.toList = done ++ List.replicate (known - done.length) ({} : State)

theorem writing_new : Writing [] 1 new := ⟨built_new, rfl, Nat.zero_le _, rfl⟩

theorem Writing.size_eq {known : Nat} (h : Writing done known a) : a.size = known := by
  rw [size, ← Array.length_toList, h.toList_eq, List.length_append, List.length_replicate]
  exact Nat.add_sub_cancel' h.le_known

theorem Writing.addRow {known : Nat} {row : Row Nat Interval} (h : Writing done known a)
    (hlt : done.length < known) (horder : InOrder known (row.edges.map (·.2)))
    (arrange : List Transition → List Transition) :
    Writing (done ++ [row.toState arrange]) (grow known (row.edges.map (·.2)))
      (a.addRow arrange done.length row) := by
  obtain ⟨n, hn⟩ := Nat.exists_eq_add_of_lt hlt
  have hgrow : known ≤ grow known (row.edges.map (·.2)) := (grow_le_iff.mp (Nat.le_refl _)).1
  have hmarked : (a.markRow done.length row).Built ∧ (a.markRow done.length row).initial = 0 ∧
      (a.markRow done.length row).states.toList =
        done ++ { accept := row.accept } :: List.replicate n ({} : State) := by
    have hstates := h.toList_eq
    rw [hn, Nat.add_assoc, Nat.add_sub_cancel_left, List.replicate_succ] at hstates
    rw [markRow]
    cases row.accept with
    | false => exact ⟨h.toBuilt, h.initial_eq, hstates⟩
    | true => exact ⟨h.toBuilt.setAccept _ _, h.initial_eq, toList_setAccept hstates⟩
  obtain ⟨hbuilt, hinitial, hstates⟩ := hmarked
  have hsize : (a.markRow done.length row).size = known := by
    rw [size, ← Array.length_toList, hstates]
    simp only [List.length_append, List.length_cons, List.length_replicate]
    omega
  have henrolled := foldl_enroll hbuilt (hsize.symm ▸ horder)
  rw [List.foldl_map, hsize] at henrolled
  obtain ⟨hbuilt, hinitial', henrolled⟩ := henrolled
  rw [hstates, List.append_assoc, List.cons_append, List.replicate_append_replicate] at henrolled
  refine ⟨hbuilt.addAll (lt_size_of_toList henrolled) _,
    initial_addAll.trans (hinitial'.trans hinitial), ?_, ?_⟩
  · rw [List.length_append, List.length_singleton]
    exact hlt.trans_le hgrow
  · refine (toList_addAll henrolled List.Pairwise.nil _).trans ?_
    rw [insertAll_nil, List.length_append, List.length_singleton, List.append_assoc,
      List.singleton_append]
    congr 3
    omega

end Automaton

namespace Exploration

set_option linter.unusedSectionVars false

variable {α : Type} {cmp : α → α → Ordering} [Std.TransCmp cmp] [Std.LawfulEqCmp cmp]
variable {e : Exploration α Interval cmp} {look : α → Row α Interval} {x₀ : α}

variable {write : Automaton → Nat → Row Nat Interval → Automaton}
variable {arrange : List Transition → List Transition}

/-- Row by row each number comes up when it is the next one. -/
theorem Explored.writing (h : Explored look x₀ e)
    (hwrite : ∀ {a q row}, q < a.size → write a q row = a.addRow arrange q row) :
    Automaton.Writing (e.rows.toList.map (Row.toState arrange)) e.items.size
      (e.rows.toList.zipIdx.foldl (fun a entry => write a entry.2 entry.1) .new) := by
  have hn : known e.rowTargets e.rows.toList.length = e.items.size := by
    rw [Array.length_toList, h.rows_size, h.breadthFirst.known_eq]
  rw [← hn]
  refine foldl_zipIdx_induction
    (fun done a => Automaton.Writing (done.map (Row.toState arrange)) (known e.rowTargets done.length) a)
    Automaton.writing_new fun {done row rest a} hrows hwriting => ?_
  have hlt : done.length < e.items.size := by
    rw [← h.rows_size, ← Array.length_toList, hrows]
    simp
  have hahead := h.breadthFirst.ahead _ hlt
  have hrow : e.rowTargets done.length = row.edges.map (·.2) := by
    rw [rowTargets, ← Array.getElem?_toList, hrows]
    simp
  have horder : InOrder (known e.rowTargets done.length) (row.edges.map (·.2)) :=
    hrow ▸ h.breadthFirst.inOrder _ hlt
  have hnext := hwriting.addRow (by rwa [List.length_map]) horder arrange
  rw [List.length_map] at hnext
  rw [List.map_append, List.length_append, List.length_singleton, known, hrow,
    hwrite (hwriting.size_eq ▸ hahead)]
  exact hnext

/-- Written down, an exploration has the states of the assembled automaton. -/
theorem Explored.states_written (h : Explored look x₀ e)
    (hwrite : ∀ {a q row}, q < a.size → write a q row = a.addRow arrange q row) :
    (e.rows.toList.zipIdx.foldl (fun a entry => write a entry.2 entry.1) .new).states =
      (e.assembled arrange).states := by
  have htoList := (h.writing hwrite).toList_eq
  rw [List.length_map, Array.length_toList, h.rows_size, Nat.sub_self, List.replicate_zero,
    List.append_nil] at htoList
  exact congrArg List.toArray htoList

/-- And it has the same mark, unless some interval has its ends inverted. -/
theorem Explored.eq_assembled (h : Explored look x₀ e)
    (hwrite : ∀ {a q row}, q < a.size → write a q row = a.addRow arrange q row)
    (hends : ∀ i, ∀ t ∈ (e.assembled arrange).transitions i, t.interval.min ≤ t.interval.max) :
    e.rows.toList.zipIdx.foldl (fun a entry => write a entry.2 entry.1) .new = e.assembled arrange := by
  have hstates := h.states_written hwrite
  have hwriting := h.writing hwrite
  rw [hwriting.toBuilt.eq_ofStates, hstates, hwriting.initial_eq]
  · rfl
  · intro i t ht
    rw [Automaton.transitions, Automaton.state_congr hstates] at ht
    exact hends i t ht

/-- **Adding each edge when it comes up gives the automaton over the rows.** -/
theorem Explored.states_toAutomaton (h : Explored look x₀ e) :
    e.toAutomaton.states = (e.assembled id).states ∧ e.toAutomaton.initial = 0 :=
  ⟨h.states_written Automaton.addEdges_eq, (h.writing Automaton.addEdges_eq).initial_eq⟩

theorem plain_toAutomaton (e : Exploration α Interval cmp) : e.toAutomaton.Plain :=
  List.foldlRecOn _ _ ⟨rfl, rfl⟩ fun _ hb entry _ => hb.addEdges entry.2 entry.1

theorem Explored.toAutomaton_eq (h : Explored look x₀ e)
    (hends : ∀ i, ∀ t ∈ (e.assembled id).transitions i, t.interval.min ≤ t.interval.max) :
    e.toAutomaton = e.assembled id :=
  h.eq_assembled Automaton.addEdges_eq hends

/-- Rows that keep apart are joined alike, whether only touching intervals are joined or also those
that overlap. -/
theorem Explored.toJoined_eq (h : Explored look x₀ e) (hp : ∀ x ∈ e.items, (look x).Proper)
    (ha : ∀ x ∈ e.items, (look x).Apart) : e.toJoined = e.assembled coalesce := by
  have hsame : e.assembled joinAbutting = e.assembled coalesce := by
    rw [assembled, assembled]
    congr 1
    refine List.map_congr_left fun row hrow => ?_
    obtain ⟨i, hi⟩ := List.getElem?_of_mem hrow
    rw [Array.getElem?_toList] at hi
    obtain ⟨x, hx⟩ : ∃ x, e.items[i]? = some x := by
      have hlt := (Array.getElem?_eq_some_iff.mp hi).1
      exact ⟨_, Array.getElem?_eq_getElem (h.rows_size ▸ hlt)⟩
    obtain rfl := Option.some.inj (hi.symm.trans (h.row i x hx))
    have hmem := Array.mem_iff_getElem?.mpr ⟨i, hx⟩
    have hjoined : joinAbutting (e.outgoing look x) = coalesce (e.outgoing look x) :=
      joinAbutting_eq_coalesce (apart_outgoing (ha x hmem)) fun t ht =>
        (labels_outgoing (hp x hmem) t ht).min_le_max
    rw [outgoing] at hjoined
    rw [Row.toState, Row.toState, hjoined]
  rw [← hsame]
  refine h.eq_assembled (fun _ => rfl) fun i t ht => ?_
  rw [hsame] at ht
  exact (h.labels_assembled (fun x hx => arranges_coalesce (hp x hx) (ha x hx)) i t ht).min_le_max

theorem Explored.wellFormed_toJoined (h : Explored look x₀ e) (hp : ∀ x ∈ e.items, (look x).Proper)
    (ha : ∀ x ∈ e.items, (look x).Apart) : e.toJoined.WellFormed ∧ e.toJoined.initial = 0 := by
  rw [h.toJoined_eq hp ha]
  exact ⟨Automaton.wellFormed_ofStates (h.valid_assembled fun x hx =>
    arranges_coalesce (hp x hx) (ha x hx)), rfl⟩

end Exploration

end IntervalAutomata
