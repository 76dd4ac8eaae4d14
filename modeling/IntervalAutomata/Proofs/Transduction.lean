import IntervalAutomata.Proofs.Image
import IntervalAutomata.Proofs.Mutation
import IntervalAutomata.Proofs.Running

/-! # What an image accepts

A run of a transducer consumes one symbol with every transition and emits at most one. A run of the
transducer and a path of the automaton over the same input are one walk through the pairs of states, and
the build graph of the image has the same walks, spelled by what is emitted. What an edge of the graph
spells does not say which symbol was consumed: an identity allows only the common symbols, and behind
any other output one common symbol is enough. The numbers and intervals that this relies on are kept by
every operation that builds a transducer. -/

namespace IntervalAutomata

/-- What an output may emit for the symbol `c`. -/
def Output.Emits : Output → (c : Symbol) → List Symbol → Prop
  | .identity, c, v => v = [c]
  | .epsilon, _, v => v = []
  | .interval i, _, v => ∃ d, i.contains d = true ∧ v = [d]

/-! ## The order of transitions -/

instance : Std.TransCmp (fun x y : Output => Interval.order x.span y.span) where
  eq_swap := Std.OrientedCmp.eq_swap
  isLE_trans := Std.TransCmp.isLE_trans

instance : Std.TransCmp Output.order :=
  inferInstanceAs (Std.TransCmp (compareLex _ _))

instance : Std.LawfulEqCmp Output.order where
  compare_self := Std.ReflCmp.compare_self
  eq_of_compare {x y} h := by
    simp only [Output.order, compareLex_eq_eq, compareOn, Std.LawfulEqCmp.compare_eq_iff_eq]
      at h
    cases x <;> cases y <;> simp_all [Output.rank, Output.span]

instance : Std.TransCmp (fun x y : Emission => Interval.order x.interval y.interval) where
  eq_swap := Std.OrientedCmp.eq_swap
  isLE_trans := Std.TransCmp.isLE_trans

instance : Std.TransCmp (fun x y : Emission => Output.order x.output y.output) where
  eq_swap := Std.OrientedCmp.eq_swap
  isLE_trans := Std.TransCmp.isLE_trans

instance : Std.TransCmp Emission.order :=
  inferInstanceAs (Std.TransCmp (compareLex _ (compareLex _ _)))

instance : Std.LawfulEqCmp Emission.order where
  compare_self := Std.ReflCmp.compare_self
  eq_of_compare {x y} h := by
    simp only [Emission.order, compareLex_eq_eq, compareOn, Std.LawfulEqCmp.compare_eq_iff_eq]
      at h
    cases x; cases y; simp_all

namespace Transducer

open Automaton

/-- Some transition of `p` covers `c`, may emit `v`, and leads to `q`. -/
def Step (t : Transducer) (p : Nat) (c : Symbol) (v : List Symbol) (q : Nat) : Prop :=
  ∃ e ∈ t.transitions p, e.interval.contains c = true ∧ e.output.Emits c v ∧ e.target = q

/-- A run over an input and what it emits. -/
inductive Run (t : Transducer) : Nat → (input emitted : List Symbol) → Nat → Prop
  | nil (p : Nat) : Run t p [] [] p
  | cons {p c v r u w q} : t.Step p c v r → Run t r u w q → Run t p (c :: u) (v ++ w) q

/-- Some run over `u` from the initial to an accepting state emits `w`. -/
def Transduces (t : Transducer) (u w : List Symbol) : Prop :=
  ∃ q, t.Run t.initial u w q ∧ t.isAccepting q = true

/-- What is emitted from a pair of states on, over inputs that the automaton accepts there. -/
def emissions (t : Transducer) (a : Automaton) (x : Nat × Nat) : Language Symbol :=
  {w | ∃ u ∈ a.residual x.2, ∃ q, t.Run x.1 u w q ∧ t.isAccepting q = true}

variable {t : Transducer} {a : Automaton} {x y start : Nat × Nat} {c i j m : Nat} {v w : List Symbol}

/-! ## Joint steps -/

/-- What an edge of the build graph spells, where an empty step spells nothing. -/
def labelWords : Option Interval → Language Symbol
  | none => 1
  | some i => {v | ∃ c, i.contains c = true ∧ v = [c]}

/-- The label stands for the outputs on all common symbols, of which there are some. -/
theorem mem_labelWords_emitted {common : Interval} {output : Output} (h : common.min ≤ common.max) :
    v ∈ labelWords (emitted common output) ↔ ∃ c, common.contains c = true ∧ output.Emits c v := by
  have hsome : ∃ c, common.contains c = true := ⟨common.min, by simpa using h⟩
  cases output with
  | identity => rfl
  | epsilon => exact ⟨fun hv => hsome.imp fun c hc => ⟨hc, hv⟩, fun ⟨_, _, hv⟩ => hv⟩
  | interval i => exact ⟨fun hv => hsome.imp fun c hc => ⟨hc, hv⟩, fun ⟨_, _, hv⟩ => hv⟩

/-- **A pair moves on a symbol when both states do**, and spells what the transducer emits. -/
theorem joint_step : (∃ label, (label, y) ∈ (imageRow t a x).edges ∧ v ∈ labelWords label) ↔
    ∃ c, t.Step x.1 c v y.1 ∧ a.Step x.2 c y.2 := by
  constructor
  · rintro ⟨label, hedge, hv⟩
    obtain ⟨e, he, s, hs, common, hmeet, rfl, rfl⟩ := mem_imageRow.mp hedge
    obtain ⟨hle, hcommon⟩ := Interval.meet?_eq_some_iff.mp hmeet
    obtain ⟨c, hc, hemits⟩ := (mem_labelWords_emitted (by rw [hcommon]; exact hle)).mp hv
    obtain ⟨hce, hcs⟩ := Interval.contains_meet?.mp ⟨common, hmeet, hc⟩
    exact ⟨c, ⟨e, he, hce, hemits, rfl⟩, s, hs, hcs, rfl⟩
  · intro ⟨c, ⟨e, he, hce, hemits, hp⟩, s, hs, hcs, hq⟩
    obtain ⟨common, hmeet, hc⟩ := Interval.contains_meet?.mpr ⟨hce, hcs⟩
    obtain ⟨hle, hcommon⟩ := Interval.meet?_eq_some_iff.mp hmeet
    refine ⟨emitted common e.output, ?_, ?_⟩
    · exact mem_imageRow.mpr ⟨e, he, s, hs, common, hmeet, rfl, Prod.ext hp hq⟩
    · exact (mem_labelWords_emitted (by rw [hcommon]; exact hle)).mpr ⟨c, hc, hemits⟩

/-! ## The nodes of the build graph -/

section

variable {e : Exploration (Nat × Nat) (Option Interval) pairOrder}

theorem node_item (h : Exploration.Complete (imageRow t a) [start] e) (hx : e.items[i]? = some x) :
    (imageGraph e.rows).node (i + 1) = imageNode (e.numbered (imageRow t a x)) :=
  node_imageGraph_succ _ _ (h.row i x hx)

/-- Edges and empty steps between the nodes of items are those of the items. -/
theorem mem_numbered {label : Option Interval} :
    (label, m) ∈ (e.numbered (imageRow t a x)).edges ↔
      ∃ y, (label, y) ∈ (imageRow t a x).edges ∧ e.numberOf y = m := by
  simp [Exploration.numbered]

/-- A labelled step into the node of an item begins a path. -/
theorem path_of_label (h : Exploration.Complete (imageRow t a) [start] e)
    (hx : e.items[i]? = some x) {label : Option Interval} (hedge : (label, y) ∈ (imageRow t a x).edges)
    (hv : v ∈ labelWords label) (hw : (imageGraph e.rows).Path (e.numberOf y + 1) w m) :
    (imageGraph e.rows).Path (i + 1) (v ++ w) m := by
  have hrow := mem_numbered (e := e).mpr ⟨y, hedge, rfl⟩
  cases label with
  | none =>
    obtain rfl : v = [] := hv
    refine .skip ?_ hw
    rw [node_item h hx]
    exact mem_successors_imageNode.mpr (.inr ⟨_, hrow, rfl⟩)
  | some i =>
    obtain ⟨c, hc, rfl⟩ := hv
    refine .read (e := ⟨i, e.numberOf y + 1⟩) ?_ hc hw
    rw [node_item h hx]
    exact mem_edges_imageNode.mpr ⟨_, hrow, rfl⟩

/-- A joint step before what is emitted later. -/
theorem emissions_of_label {label : Option Interval} (hedge : (label, y) ∈ (imageRow t a x).edges)
    (hv : v ∈ labelWords label) (hw : w ∈ t.emissions a y) : v ++ w ∈ t.emissions a x := by
  obtain ⟨c, ht, ha⟩ := joint_step.mp ⟨label, hedge, hv⟩
  obtain ⟨u, hu, q, hrun, hq⟩ := hw
  exact ⟨c :: u, cons_mem_residual.mpr ⟨_, ha, hu⟩, q, .cons ht hrun, hq⟩

theorem emissions_of_path (h : Exploration.Complete (imageRow t a) [start] e)
    (hx : e.items[i]? = some x) (hw : (imageGraph e.rows).Path (i + 1) w 0) :
    w ∈ t.emissions a x := by
  generalize hn : i + 1 = n at hw
  generalize hm : 0 = m at hw
  induction hw generalizing i x with
  | nil => exact absurd (hn.trans hm.symm) (Nat.succ_ne_zero i)
  | skip hsuccessor hw ih =>
    subst hm
    rw [← hn, node_item h hx] at hsuccessor
    obtain ⟨haccept, rfl⟩ | ⟨k, hrow, rfl⟩ := mem_successors_imageNode.mp hsuccessor
    · -- the exit spells nothing more
      have hexit := Graph.mem_spells.mpr hw
      rw [Graph.spells_bare node_imageGraph_zero] at hexit
      obtain rfl := (Language.mem_one _).mp hexit
      obtain ⟨ht, ha⟩ := Bool.and_eq_true_iff.mp haccept
      exact ⟨[], nil_mem_residual.mpr ha, _, .nil _, ht⟩
    · obtain ⟨y, hedge, rfl⟩ := mem_numbered.mp hrow
      have hy := h.indexed.getElem?_numberOf (h.mem_of_edge (Array.mem_of_getElem? hx) hedge)
      exact emissions_of_label (v := []) hedge rfl (ih hy rfl rfl)
  | read hread hc hw ih =>
    subst hm
    rw [← hn, node_item h hx] at hread
    obtain ⟨k, hrow, htarget⟩ := mem_edges_imageNode.mp hread
    obtain ⟨y, hedge, rfl⟩ := mem_numbered.mp hrow
    have hy := h.indexed.getElem?_numberOf (h.mem_of_edge (Array.mem_of_getElem? hx) hedge)
    exact emissions_of_label (v := [_]) hedge ⟨_, hc, rfl⟩ (ih hy htarget.symm rfl)

theorem path_of_run (h : Exploration.Complete (imageRow t a) [start] e) {p q : Nat}
    {u : List Symbol} (hrun : t.Run p u w q) (hx : e.items[i]? = some (p, m))
    (hu : u ∈ a.residual m) (hq : t.isAccepting q = true) : (imageGraph e.rows).Path (i + 1) w 0 := by
  induction hrun generalizing i m with
  | nil p =>
    refine .skip (m := 0) ?_ (.nil 0)
    rw [node_item h hx]
    exact mem_successors_imageNode.mpr (.inl ⟨Bool.and_eq_true_iff.mpr
      ⟨hq, nil_mem_residual.mp hu⟩, rfl⟩)
  | @cons p c v r u w q hstep hrun ih =>
    obtain ⟨s, hs, hu⟩ := cons_mem_residual.mp hu
    obtain ⟨label, hedge, hv⟩ := joint_step (x := (p, m)) (y := (r, s)) |>.mpr ⟨c, hstep, hs⟩
    have hy := h.indexed.getElem?_numberOf (h.mem_of_edge (Array.mem_of_getElem? hx) hedge)
    exact path_of_label h hx hedge hv (ih hy hu hq)

/-- **From the node of a pair the exit is reached on what is emitted there.** -/
theorem spells_item (h : Exploration.Complete (imageRow t a) [start] e)
    (hx : e.items[i]? = some x) : (imageGraph e.rows).spells (i + 1) 0 = t.emissions a x := by
  ext w
  constructor
  · exact emissions_of_path h hx
  · intro ⟨u, hu, q, hrun, hq⟩
    exact path_of_run h hrun hx hu hq

end

/-! ## Transducers that are built

Adding a state and choosing accepting states leave all transitions alone, and a new transition is all
that its state gets. So every operation keeps validity, and the steps afterwards are known. -/

theorem transitions_addState (t : Transducer) (accept : Bool) (p : Nat) :
    (t.addState accept).transitions p = t.transitions p := by
  rw [transitions, transitions, state, state, Array.getD_eq_getD_getElem?, Array.getD_eq_getD_getElem?,
    addState, Array.getElem?_push]
  split
  · rename_i hp
    rw [hp, Array.getElem?_eq_none (Nat.le_refl _)]
    rfl
  · rfl

theorem transitions_setAccept {k : Nat} (hk : k < t.size) (accept : Bool) (p : Nat) :
    (t.setAccept k accept).transitions p = t.transitions p := by
  rw [transitions, transitions, state, setAccept, getD_modify hk]
  split
  · rename_i hp
    rw [hp]
    rfl
  · rfl

section

variable {interval : Interval} {output : Output} {source target p q : Nat} {l : List Interval}
variable {excluded : Char} {e : Emission}

theorem size_addTransition : (t.addTransition source interval output target).size = t.size :=
  Array.size_modify

theorem mem_transitions_addTransition (hsource : source < t.size) :
    e ∈ (t.addTransition source interval output target).transitions p ↔
      e ∈ t.transitions p ∨ p = source ∧ e = ⟨interval, output, target⟩ := by
  rw [transitions, state, addTransition, getD_modify hsource]
  split
  · rename_i hp
    rw [mem_insertAscending, hp, or_comm]
    exact or_congr_right (iff_and_self.mpr fun _ => rfl)
  · rename_i hp
    exact (or_iff_left fun h => hp h.1).symm

/-- **A new transition adds its own steps.** -/
theorem step_addTransition (hsource : source < t.size) :
    (t.addTransition source interval output target).Step p c v q ↔ t.Step p c v q ∨
      p = source ∧ interval.contains c = true ∧ output.Emits c v ∧ target = q := by
  simp only [Step, mem_transitions_addTransition hsource, or_and_right, exists_or]
  refine or_congr_right ⟨?_, ?_⟩
  · intro ⟨e, ⟨hp, he⟩, hstep⟩
    subst he
    exact ⟨hp, hstep⟩
  · intro ⟨hp, hstep⟩
    exact ⟨_, ⟨hp, rfl⟩, hstep⟩

theorem step_addEach (hsource : source < t.size) :
    (l.foldl (fun t i => t.addTransition source i output target) t).Step p c v q ↔ t.Step p c v q ∨
      p = source ∧ (∃ i ∈ l, i.contains c = true) ∧ output.Emits c v ∧ target = q := by
  induction l generalizing t with
  | nil => simp
  | cons i l ih =>
    rw [List.foldl_cons, ih (size_addTransition.symm ▸ hsource), step_addTransition hsource, or_assoc,
      ← and_or_left, ← or_and_right]
    simp only [List.mem_cons, or_and_right, exists_or, exists_eq_left]

theorem proper_allBut {symbol : Nat} (h : symbol ≤ maxSymbol) {i : Interval}
    (hi : i ∈ allBut symbol) : i.Proper := by
  rw [allBut, List.mem_append] at hi
  rcases hi with hi | hi
  · split at hi
    · obtain rfl := List.mem_singleton.mp hi
      exact ⟨Nat.zero_le _, (Nat.sub_le _ _).trans h⟩
    · cases hi
  · split at hi
    · obtain rfl := List.mem_singleton.mp hi
      exact ⟨‹_›, Nat.le_refl _⟩
    · cases hi

theorem contains_allBut {symbol : Nat} (h : symbol ≤ maxSymbol) :
    (∃ i ∈ allBut symbol, i.contains c = true) ↔ c ≤ maxSymbol ∧ c ≠ symbol := by
  have hbelow : (∃ i ∈ if symbol > minSymbol then [⟨minSymbol, symbol - 1⟩] else [],
      Interval.contains i c = true) ↔ c < symbol := by
    split
    · simp only [List.mem_singleton, exists_eq_left, Interval.contains_iff, minSymbol] at *
      omega
    · simp only [minSymbol] at *
      simpa using (by omega : symbol ≤ c)
  have habove : (∃ i ∈ if symbol < maxSymbol then [⟨symbol + 1, maxSymbol⟩] else [],
      Interval.contains i c = true) ↔ symbol < c ∧ c ≤ maxSymbol := by
    split
    · simp only [List.mem_singleton, exists_eq_left, Interval.contains_iff]
      exact Iff.rfl
    · simpa using (by omega : symbol < c → maxSymbol < c)
  simp only [allBut, List.mem_append, or_and_right, exists_or, hbelow, habove]
  omega

/-- **An exclusion adds steps on every symbol but one.** -/
theorem step_addExclusion (hsource : source < t.size) :
    (t.addExclusion source excluded output target).Step p c v q ↔ t.Step p c v q ∨
      p = source ∧ (c ≤ maxSymbol ∧ c ≠ excluded.toNat) ∧ output.Emits c v ∧ target = q := by
  rw [addExclusion, step_addEach hsource, contains_allBut (toNat_le_maxSymbol excluded)]

theorem Valid.congr {t' : Transducer} (ht : t.Valid) (hsize : t.size ≤ t'.size)
    (hinitial : t'.initial = t.initial) (h : ∀ p, t'.transitions p = t.transitions p) : t'.Valid where
  initial_lt := hinitial ▸ ht.initial_lt.trans_le hsize
  target_lt p e he := (ht.target_lt p e (h p ▸ he)).trans_le hsize
  proper p e he := ht.proper p e (h p ▸ he)
  emits p e he := ht.emits p e (h p ▸ he)

theorem Valid.addTransition (ht : t.Valid) (hsource : source < t.size) (hinterval : interval.Proper)
    (houtput : ∀ i, output = .interval i → i.Proper) (htarget : target < t.size) :
    (t.addTransition source interval output target).Valid where
  initial_lt := size_addTransition.symm ▸ ht.initial_lt
  target_lt p e he := by
    rw [size_addTransition]
    obtain he | ⟨-, rfl⟩ := (mem_transitions_addTransition hsource).mp he
    · exact ht.target_lt p e he
    · exact htarget
  proper p e he := by
    obtain he | ⟨-, rfl⟩ := (mem_transitions_addTransition hsource).mp he
    · exact ht.proper p e he
    · exact hinterval
  emits p e he := by
    obtain he | ⟨-, rfl⟩ := (mem_transitions_addTransition hsource).mp he
    · exact ht.emits p e he
    · exact houtput

theorem Valid.addEach (ht : t.Valid) (hsource : source < t.size) (hl : ∀ i ∈ l, i.Proper)
    (houtput : ∀ i, output = .interval i → i.Proper) (htarget : target < t.size) :
    (l.foldl (fun t i => t.addTransition source i output target) t).Valid := by
  induction l generalizing t with
  | nil => exact ht
  | cons i l ih =>
    obtain ⟨hi, hl⟩ := List.forall_mem_cons.mp hl
    exact ih (ht.addTransition hsource hi houtput htarget) (size_addTransition.symm ▸ hsource) hl
      (size_addTransition.symm ▸ htarget)

theorem valid_ofAutomaton (ha : a.Valid) : (ofAutomaton a).Valid := by
  have hsize : (ofAutomaton a).size = a.size := Array.size_map
  have hmem : ∀ p, ∀ e ∈ (ofAutomaton a).transitions p,
      ∃ s ∈ a.transitions p, (⟨s.interval, .epsilon, s.target⟩ : Emission) = e := by
    intro p e he
    rw [transitions, state, ofAutomaton, Array.getD_eq_getD_getElem?, Array.getElem?_map] at he
    rw [Automaton.transitions, Automaton.state, Array.getD_eq_getD_getElem?]
    cases hs : a.states[p]? with
    | none =>
      rw [hs] at he
      cases he
    | some s =>
      rw [hs] at he
      exact List.mem_map.mp he
  refine ⟨hsize.symm ▸ ha.initial_lt, fun p e he => ?_, fun p e he => ?_, fun p e he => ?_⟩
  all_goals obtain ⟨s, hs, rfl⟩ := hmem p e he
  · exact hsize.symm ▸ ha.target_lt p s hs
  · exact ha.proper p s hs
  · intro i hi
    cases hi

end

/-- What the operations build from numbers of states and proper intervals. -/
inductive Built : Transducer → Prop
  | new : Built .new
  | ofAutomaton {a : Automaton} : a.Valid → Built (.ofAutomaton a)
  | addState {t : Transducer} (accept : Bool) : Built t → Built (t.addState accept)
  | setAccept {t : Transducer} {q : Nat} (accept : Bool) : Built t → q < t.size →
      Built (t.setAccept q accept)
  | addTransition {t : Transducer} {source interval output target} : Built t → source < t.size →
      interval.Proper → (∀ i, output = .interval i → i.Proper) → target < t.size →
      Built (t.addTransition source interval output target)
  | addExclusion {t : Transducer} {source excluded output target} : Built t → source < t.size →
      (∀ i, output = .interval i → i.Proper) → target < t.size →
      Built (t.addExclusion source excluded output target)
  | addAll {t : Transducer} {source output target} : Built t → source < t.size →
      (∀ i, output = .interval i → i.Proper) → target < t.size →
      Built (t.addAll source output target)

/-- **Whatever is built is valid.** -/
theorem Built.valid (ht : t.Built) : t.Valid := by
  induction ht with
  | new =>
    have hbare : ∀ p, Transducer.new.transitions p = [] := by
      intro p
      rcases p with _ | p <;> rfl
    exact ⟨Nat.one_pos, fun p e he => by simp [hbare] at he, fun p e he => by simp [hbare] at he,
      fun p e he => by simp [hbare] at he⟩
  | ofAutomaton ha => exact valid_ofAutomaton ha
  | @addState t accept _ ih =>
    exact ih.congr ((Nat.le_succ _).trans_eq (Array.size_push _).symm) rfl
      (transitions_addState t accept)
  | setAccept accept _ hq ih =>
    exact ih.congr (Nat.le_of_eq Array.size_modify.symm) rfl (transitions_setAccept hq accept)
  | addTransition _ hsource hinterval houtput htarget ih =>
    exact ih.addTransition hsource hinterval houtput htarget
  | @addExclusion t _ excluded _ _ _ hsource houtput htarget ih =>
    exact ih.addEach hsource (fun _ => proper_allBut (toNat_le_maxSymbol excluded)) houtput htarget
  | addAll _ hsource houtput htarget ih =>
    exact ih.addTransition hsource ⟨Nat.zero_le _, Nat.le_refl _⟩ houtput htarget

/-! ## Images -/

/-- **The image is exact.** It accepts what the transducer emits on the inputs that the automaton
accepts by its transitions. -/
theorem Valid.image_exact (ht : t.Valid) (ha : a.Valid) :
    (t.image a).value.WellFormed ∧
      (∀ w, (t.image a).value.runSymbols w = true ↔ ∃ u ∈ a.language, t.Transduces u w) ∧
      ∀ text, (t.image a).value.run text = true ↔
        ∃ u ∈ a.language, t.Transduces u (symbols text) := by
  obtain ⟨e, hexplored, hvalue⟩ := ht.image_eq ha
  obtain ⟨hwell, hlanguage⟩ := (realizes_imageGraph ht hexplored).toAutomaton
  have htrimmed : (t.image a).value.WellFormed := hvalue ▸ hwell.trim
  have hwords : ∀ w, w ∈ (t.image a).value.language ↔ ∃ u ∈ a.language, t.Transduces u w := by
    intro w
    rw [hvalue, hwell.toValid.trim_language, hlanguage,
      spells_item hexplored.toComplete hexplored.head]
    rfl
  exact ⟨htrimmed, fun w => htrimmed.runSymbols_iff.trans (hwords w),
    fun text => (htrimmed.run_iff text).trans (hwords _)⟩

/-- Copies, drops and replaces symbols on overlapping intervals, on loops through both states. -/
def mumble : Transducer :=
  ((((new.addState true).addTransition 0 ⟨97, 98⟩ .identity 0).addExclusion 0 'b' .epsilon
    1).addTransition 1 ⟨97, 97⟩ .epsilon 1).addTransition 1 ⟨98, 98⟩ (.interval ⟨120, 122⟩) 0

theorem built_mumble : mumble.Built := by
  have hletters : Interval.Proper ⟨120, 122⟩ := by decide
  refine .addTransition (.addTransition (.addExclusion (.addTransition (.addState true .new) ?_ ?_ nofun
    ?_) ?_ nofun ?_) ?_ ?_ nofun ?_) ?_ ?_ (fun i hi => Output.interval.inj hi ▸ hletters) ?_
  all_goals decide

/-- Two states with loops, the second accepting. -/
def hum : Automaton := .ofStates [⟨false, [⟨⟨97, 99⟩, 0⟩, ⟨⟨98, 98⟩, 1⟩]⟩, ⟨true, [⟨⟨97, 97⟩, 1⟩]⟩] 0

theorem image_mumble : mumble.Valid ∧ hum.Valid ∧
    (∀ w, (mumble.image hum).value.runSymbols w = true ↔
      ∃ u ∈ hum.language, mumble.Transduces u w) := by
  have hhum : hum.Valid := by decide
  exact ⟨built_mumble.valid, hhum, (built_mumble.valid.image_exact hhum).2.1⟩

end Transducer

end IntervalAutomata
