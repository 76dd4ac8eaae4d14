import IntervalAutomata.Proofs.Guarded

/-! # Sweeps and checks of marks without a fault

A sweep expands each number at most once, because a number waits only when it is marked for the first
time. So it ends within as many rounds as there are numbers, in whatever order they wait, and has then
expanded exactly what can be reached. Forward it has as many states as the breadth-first exploration,
backward it marks the same states as live. Once the live states are known, the check of a singleton only
asks for states that are targets of transitions. -/

namespace IntervalAutomata.Binary.Guarded

open Automaton

variable {a : Automaton} {n p q t : Nat} {s : Sweep} {starts : List Nat} {rows : Nat → List Nat}
variable {row : Nat → Guarded (List Nat)} {wait : Nat → List Nat → List Nat}

/-! ## Marking -/

/-- What a sweep has come across. -/
def Sweep.Marked (s : Sweep) (q : Nat) : Prop := q ∈ s.expanded ∨ q ∈ s.waiting

structure Marking (n : Nat) (s : Sweep) : Prop where
  length_seen : s.seen.length = n
  nodup : (s.expanded ++ s.waiting).Nodup
  seen_iff : ∀ q, s.seen[q]? = some true ↔ s.Marked q

theorem Marking.lt (h : Marking n s) (hq : s.Marked q) : q < n := by
  rw [← h.length_seen]
  exact (List.getElem?_eq_some_iff.mp ((h.seen_iff q).mpr hq)).1

theorem Marking.length_le (h : Marking n s) : s.expanded.length + s.waiting.length ≤ n := by
  have hsub : s.expanded ++ s.waiting ⊆ List.range n := fun q hq =>
    List.mem_range.mpr (h.lt (List.mem_append.mp hq))
  have := (List.subperm_of_subset h.nodup hsub).length_le
  rwa [List.length_append, List.length_range] at this

/-- Entering a number marks it and nothing else. -/
theorem Marking.enter_eq (h : Marking n s) (hwait : ∀ q w, (wait q w).Perm (q :: w)) (ht : t < n) :
    ∃ s', enter wait s t = pure s' ∧ Marking n s' ∧ s'.expanded = s.expanded ∧
      ∀ q, s'.Marked q ↔ s.Marked q ∨ q = t := by
  have hlt : t < s.seen.length := h.length_seen ▸ ht
  have hget := get_eq (List.getElem?_eq_getElem hlt)
  rw [enter, hget, pure_bind]
  cases hseen : s.seen[t] with
  | true =>
    have hmarked : s.Marked t := (h.seen_iff t).mp (by rw [List.getElem?_eq_getElem hlt, hseen])
    exact ⟨s, rfl, h, rfl, fun q => ⟨.inl, fun hq => hq.elim id fun heq => heq ▸ hmarked⟩⟩
  | false =>
    have hnew : ¬ s.Marked t := by
      rw [← h.seen_iff, List.getElem?_eq_getElem hlt, hseen]
      exact nofun
    have hmem : ∀ q, q ∈ wait t s.waiting ↔ q = t ∨ q ∈ s.waiting := fun q => by
      rw [(hwait t s.waiting).mem_iff, List.mem_cons]
    have hmarked : ∀ q, (⟨s.seen.set t true, wait t s.waiting, s.expanded⟩ : Sweep).Marked q ↔
        s.Marked q ∨ q = t := by
      intro q
      show q ∈ s.expanded ∨ q ∈ wait t s.waiting ↔ (q ∈ s.expanded ∨ q ∈ s.waiting) ∨ q = t
      rw [hmem]
      tauto
    refine ⟨⟨s.seen.set t true, wait t s.waiting, s.expanded⟩, ?_, ⟨?_, ?_, fun q => ?_⟩, rfl, hmarked⟩
    · rw [if_neg Bool.false_ne_true, set_eq hlt, pure_bind]
    · rw [List.length_set, h.length_seen]
    · refine (((hwait t s.waiting).append_left s.expanded).trans List.perm_middle).nodup_iff.mpr ?_
      exact List.nodup_cons.mpr ⟨fun hmem => hnew (List.mem_append.mp hmem), h.nodup⟩
    · rw [hmarked, ← h.seen_iff]
      show (s.seen.set t true)[q]? = some true ↔ _
      by_cases hqt : q = t
      · subst hqt
        simp [List.getElem?_set_self hlt]
      · rw [List.getElem?_set_ne (Ne.symm hqt), or_iff_left hqt]

theorem Marking.enterAll_eq {ts : List Nat} (h : Marking n s)
    (hwait : ∀ q w, (wait q w).Perm (q :: w)) (hts : ∀ t ∈ ts, t < n) :
    ∃ s', ts.foldlM (enter wait) s = pure s' ∧ Marking n s' ∧ s'.expanded = s.expanded ∧
      ∀ q, s'.Marked q ↔ s.Marked q ∨ q ∈ ts := by
  induction ts generalizing s with
  | nil => exact ⟨s, rfl, h, rfl, fun q => by simp⟩
  | cons t ts ih =>
    obtain ⟨ht, hts⟩ := List.forall_mem_cons.mp hts
    obtain ⟨s', hs', h', hexpanded, hmarked⟩ := h.enter_eq hwait ht
    obtain ⟨s'', hs'', h'', hexpanded', hmarked'⟩ := ih h' hts
    refine ⟨s'', by rw [List.foldlM_cons, hs', pure_bind, hs''], h'', hexpanded'.trans hexpanded,
      fun q => ?_⟩
    rw [hmarked', hmarked, List.mem_cons, or_assoc]

/-! ## Sweeping -/

structure Sweeping (rows : Nat → List Nat) (starts : List Nat) (n : Nat) (s : Sweep) : Prop
    extends Marking n s where
  reached : ∀ q, s.Marked q → Reaches (fun q => .plain (rows q)) starts q
  starts_marked : ∀ q ∈ starts, s.Marked q
  closed : ∀ p ∈ s.expanded, ∀ q ∈ rows p, s.Marked q

/-- Expanding the next number marks where it leads. -/
theorem Sweeping.expand (h : Sweeping rows starts n s) (hwait : ∀ q w, (wait q w).Perm (q :: w))
    (hrows : ∀ p < n, ∀ q ∈ rows p, q < n) {waiting : List Nat} (hs : s.waiting = q :: waiting) :
    ∃ s', (rows q).foldlM (enter wait) { s with waiting, expanded := s.expanded ++ [q] } = pure s' ∧
      Sweeping rows starts n s' ∧ s'.expanded.length = s.expanded.length + 1 := by
  have hq : s.Marked q := .inr (by rw [hs]; exact List.mem_cons_self)
  have hmoved : ∀ p, ({ s with waiting, expanded := s.expanded ++ [q] } : Sweep).Marked p ↔
      s.Marked p := by
    intro p
    simp only [Sweep.Marked, hs, List.mem_append, List.mem_cons, List.not_mem_nil, or_false]
    tauto
  have hmarking : Marking n { s with waiting, expanded := s.expanded ++ [q] } := by
    refine ⟨h.length_seen, ?_, fun p => (h.seen_iff p).trans (hmoved p).symm⟩
    have hnodup := h.nodup
    rw [hs] at hnodup
    simpa using hnodup
  obtain ⟨s', hs', h', hexpanded, hmarked⟩ := hmarking.enterAll_eq hwait (hrows q (h.lt hq))
  have hmarked : ∀ p, s'.Marked p ↔ s.Marked p ∨ p ∈ rows q := fun p => by rw [hmarked, hmoved]
  refine ⟨s', hs', ⟨h', fun p hp => ?_, fun p hp => ?_, fun p hp r hr => ?_⟩, ?_⟩
  · rcases (hmarked p).mp hp with hp | hp
    · exact h.reached p hp
    · exact reaches_target (h.reached q hq) hp
  · exact (hmarked p).mpr (.inl (h.starts_marked p hp))
  · rw [hexpanded] at hp
    rcases List.mem_append.mp hp with hp | hp
    · exact (hmarked r).mpr (.inl (h.closed p hp r hr))
    · rw [List.mem_singleton.mp hp] at hr
      exact (hmarked r).mpr (.inr hr)
  · rw [hexpanded, List.length_append, List.length_singleton]

/-- **A sweep ends within as many rounds as there are numbers**, and has then expanded what can be
reached. -/
theorem Sweeping.sweep_eq (h : Sweeping rows starts n s) (wait : Nat → List Nat → List Nat)
    (hwait : ∀ q w, (wait q w).Perm (q :: w)) (hrow : ∀ q < n, row q = pure (rows q))
    (hrows : ∀ p < n, ∀ q ∈ rows p, q < n) (fuel : Nat)
    (hfuel : n ≤ s.expanded.length + fuel) :
    ∃ s', sweep wait row fuel s = pure s' ∧ Sweeping rows starts n s' ∧ s'.waiting = [] := by
  -- what has been expanded and the fuel that is left cover all numbers in every round
  induction fuel generalizing s with
  | zero =>
    have hle := h.length_le
    have hnil : s.waiting = [] := List.eq_nil_of_length_eq_zero (by omega)
    refine ⟨s, ?_, h, hnil⟩
    rw [sweep, hnil, ensure_eq List.isEmpty_nil, pure_bind]
  | succ fuel ih =>
    cases hs : s.waiting with
    | nil =>
      refine ⟨s, ?_, h, hs⟩
      rw [sweep, hs]
    | cons q waiting =>
      obtain ⟨s', hs', h', hlength⟩ := h.expand hwait hrows hs
      obtain ⟨s'', hs'', hdone⟩ := ih h' (by omega)
      refine ⟨s'', ?_, hdone⟩
      have hq : q < n := h.lt (.inr (by rw [hs]; exact List.mem_cons_self))
      rw [sweep, hs]
      dsimp only
      rw [hrow q hq, pure_bind, hs', pure_bind, hs'']

/-- What a finished sweep has expanded. -/
theorem Sweeping.mem_expanded (h : Sweeping rows starts n s) (hs : s.waiting = []) :
    q ∈ s.expanded ↔ Reaches (fun q => .plain (rows q)) starts q := by
  have hmarked : ∀ p, s.Marked p ↔ p ∈ s.expanded := fun p => by simp [Sweep.Marked, hs]
  rw [← hmarked]
  refine ⟨h.reached q, fun hq => ?_⟩
  induction hq with
  | start hx => exact h.starts_marked _ hx
  | edge _ hd ih => exact h.closed _ ((hmarked _).mp ih) _ (mem_edges_plain.mp hd)

/-! ## Forward -/

theorem getElem?_replicate_false {q : Nat} : (List.replicate n false)[q]? ≠ some true := by
  rw [List.getElem?_replicate]
  split <;> simp

theorem reachable_eq (ha : a.Valid) :
    ∃ order, reachable a = pure order ∧ order.length = a.reachable.length := by
  have hlt := ha.initial_lt
  have hmarking : Marking a.size
      ⟨(List.replicate a.size false).set a.initial true, [a.initial], []⟩ := by
    refine ⟨by simp, List.nodup_singleton _, fun q => ?_⟩
    show ((List.replicate a.size false).set a.initial true)[q]? = some true ↔ q ∈ [] ∨ q ∈ [a.initial]
    rw [List.mem_singleton, or_iff_right List.not_mem_nil]
    by_cases hq : q = a.initial
    · subst hq
      simp [hlt]
    · rw [List.getElem?_set_ne (Ne.symm hq)]
      exact iff_of_false getElem?_replicate_false hq
  have hstart : Sweeping a.targets [a.initial] a.size
      ⟨(List.replicate a.size false).set a.initial true, [a.initial], []⟩ :=
    ⟨hmarking, fun q hq => .start (hq.resolve_left List.not_mem_nil), fun q hq => .inr hq, nofun⟩
  have hrow : ∀ q < a.size, targets a q = pure (a.targets q) := fun q hq => by
    rw [targets, get_eq (getElem?_states hq), pure_bind]
    rfl
  obtain ⟨s, hs, hsweep, hdone⟩ := hstart.sweep_eq (fun q waiting => waiting ++ [q])
    (fun q w => List.perm_append_singleton q w) hrow
    (fun p _ q hq => by
      obtain ⟨t, ht, rfl⟩ := List.mem_map.mp hq
      exact ha.target_lt p t ht)
    a.size (Nat.le_add_left _ _)
  refine ⟨s.expanded, ?_, ?_⟩
  · rw [reachable, set_eq (by simpa using hlt), pure_bind, hs, pure_bind]
  · have hnodup := hsweep.nodup
    rw [hdone, List.append_nil] at hnodup
    refine ((List.perm_ext_iff_of_nodup hnodup ha.nodup_reachable).mpr fun q => ?_).length_eq
    rw [hsweep.mem_expanded hdone, reaches_iff_reachable ha, ha.mem_reachable]

/-! ## Backward -/

/-- Each target gets the source into its row. -/
theorem addSource_eq {entry : State × Nat} (sources : List (List Nat))
    (hlt : ∀ t ∈ entry.1.transitions, t.target < sources.length) :
    ∃ sources', addSource sources entry = pure sources' ∧ sources'.length = sources.length ∧
      ∀ p q, p ∈ sources'.getD q [] ↔
        p ∈ sources.getD q [] ∨ p = entry.2 ∧ ∃ t ∈ entry.1.transitions, t.target = q := by
  rw [addSource]
  generalize entry.1.transitions = ts at hlt
  induction ts generalizing sources with
  | nil => exact ⟨sources, rfl, rfl, fun p q => by simp⟩
  | cons t ts ih =>
    obtain ⟨ht, hts⟩ := List.forall_mem_cons.mp hlt
    obtain ⟨sources', hs, hlength, hmem⟩ := ih
      (sources.set t.target (sources[t.target] ++ [entry.2])) (by simpa using hts)
    refine ⟨sources', ?_, by rw [hlength, List.length_set], fun p q => ?_⟩
    · rw [List.foldlM_cons, get_eq (List.getElem?_eq_getElem ht), pure_bind, set_eq ht, pure_bind, hs]
    · rw [hmem]
      by_cases hq : t.target = q
      · subst hq
        simp [List.getD_eq_getElem?_getD, ht]
        tauto
      · simp [List.getD_eq_getElem?_getD, List.getElem?_set_ne hq, hq]

theorem addSources_eq (entries : List (State × Nat)) (sources : List (List Nat))
    (hlt : ∀ entry ∈ entries, ∀ t ∈ entry.1.transitions, t.target < sources.length) :
    ∃ sources', entries.foldlM addSource sources = pure sources' ∧
      sources'.length = sources.length ∧
      ∀ p q, p ∈ sources'.getD q [] ↔ p ∈ sources.getD q [] ∨
        ∃ entry ∈ entries, p = entry.2 ∧ ∃ t ∈ entry.1.transitions, t.target = q := by
  induction entries generalizing sources with
  | nil => exact ⟨sources, rfl, rfl, fun p q => by simp⟩
  | cons entry entries ih =>
    obtain ⟨hentry, hentries⟩ := List.forall_mem_cons.mp hlt
    obtain ⟨sources', hs', hlength', hmem'⟩ := addSource_eq sources hentry
    obtain ⟨sources'', hs'', hlength'', hmem''⟩ := ih sources' (by rwa [hlength'])
    refine ⟨sources'', by rw [List.foldlM_cons, hs', pure_bind, hs''], hlength''.trans hlength',
      fun p q => ?_⟩
    rw [hmem'', hmem', or_assoc]
    simp only [List.mem_cons, exists_eq_or_imp]

theorem predecessors_eq (ha : a.Valid) :
    ∃ sources, predecessors a = pure sources ∧ sources.length = a.size ∧
      ∀ p q, p ∈ sources.getD q [] ↔ ∃ c, a.Step p c q := by
  have hentry : ∀ entry : State × Nat, entry ∈ a.states.toList.zipIdx ↔
      entry.2 < a.size ∧ a.state entry.2 = entry.1 := by
    intro entry
    rw [List.mem_zipIdx_iff_getElem?]
    by_cases hlt : entry.2 < a.size
    · rw [getElem?_states hlt, Option.some.injEq, and_iff_right hlt]
    · refine iff_of_false (fun h => hlt ?_) fun h => hlt h.1
      simpa [size] using (List.getElem?_eq_some_iff.mp h).1
  obtain ⟨sources, hsources, hlength, hmem⟩ :=
    addSources_eq a.states.toList.zipIdx (.replicate a.size []) fun entry hmem t ht => by
      rw [List.length_replicate]
      obtain ⟨-, heq⟩ := (hentry entry).mp hmem
      exact ha.target_lt entry.2 t (by rw [transitions, heq]; exact ht)
  refine ⟨sources, hsources, by rw [hlength, List.length_replicate], fun p q => ?_⟩
  have hempty : p ∉ (List.replicate a.size ([] : List Nat)).getD q [] := by
    rw [List.getD_eq_getElem?_getD, List.getElem?_replicate]
    split <;> simp
  rw [hmem, or_iff_right hempty, ← mem_targets_iff ha, Automaton.targets,
    List.mem_map]
  constructor
  · rintro ⟨entry, hentry', rfl, t, ht, rfl⟩
    obtain ⟨-, heq⟩ := (hentry entry).mp hentry'
    exact ⟨t, by rw [transitions, heq]; exact ht, rfl⟩
  · rintro ⟨t, ht, rfl⟩
    have hlt : p < a.size := by
      by_contra hge
      rw [transitions, state_of_size_le (Nat.le_of_not_lt hge)] at ht
      cases ht
    exact ⟨⟨a.state p, p⟩, (hentry _).mpr ⟨hlt, rfl⟩, rfl, t, ht, rfl⟩

theorem markAll_eq (qs : List Nat) (seen : List Bool) (hlt : ∀ q ∈ qs, q < seen.length) :
    ∃ seen', qs.foldlM (fun seen q => set seen q true) seen = pure seen' ∧
      seen'.length = seen.length ∧ ∀ q, seen'[q]? = some true ↔ seen[q]? = some true ∨ q ∈ qs := by
  induction qs generalizing seen with
  | nil => exact ⟨seen, rfl, rfl, fun q => by simp⟩
  | cons p qs ih =>
    obtain ⟨hp, hqs⟩ := List.forall_mem_cons.mp hlt
    obtain ⟨seen', hs, hlength, hmem⟩ := ih (seen.set p true) (by simpa using hqs)
    refine ⟨seen', by rw [List.foldlM_cons, set_eq hp, pure_bind, hs],
      by rw [hlength, List.length_set], fun q => ?_⟩
    rw [hmem, List.mem_cons]
    by_cases hq : p = q
    · subst hq
      simp [hp]
    · rw [List.getElem?_set_ne hq, or_iff_right (Ne.symm hq)]

theorem reaches_of_subset {rows' : Nat → List Nat} (h : ∀ p, rows p ⊆ rows' p)
    (hq : Reaches (fun q => .plain (rows q)) starts q) :
    Reaches (fun q => .plain (rows' q)) starts q := by
  induction hq with
  | start hx => exact .start hx
  | edge _ hd ih => exact reaches_target ih (h _ (mem_edges_plain.mp hd))

theorem live_eq (ha : a.Valid) : live a = pure a.live.toList := by
  obtain ⟨sources, hsources, hlength, hmem⟩ := predecessors_eq ha
  have haccepting : ∀ q ∈ a.accepting, q < a.size := fun q hq =>
    lt_of_isAccepting (mem_accepting.mp hq)
  obtain ⟨seen, hseen, hseenlength, hmarked⟩ := markAll_eq a.accepting (.replicate a.size false)
    (by simpa using haccepting)
  have hmarking : Marking a.size ⟨seen, a.accepting.reverse, []⟩ := by
    refine ⟨by rw [hseenlength, List.length_replicate], ?_, fun q => ?_⟩
    · exact List.nodup_reverse.mpr (List.nodup_range.filter _)
    · show seen[q]? = some true ↔ q ∈ [] ∨ q ∈ a.accepting.reverse
      rw [hmarked, or_iff_right getElem?_replicate_false, or_iff_right List.not_mem_nil,
        List.mem_reverse]
  have hstart : Sweeping (fun q => sources.getD q []) a.accepting a.size
      ⟨seen, a.accepting.reverse, []⟩ :=
    ⟨hmarking, fun q hq => .start (List.mem_reverse.mp (hq.resolve_left List.not_mem_nil)),
      fun q hq => .inr (List.mem_reverse.mpr hq), nofun⟩
  have hrow : ∀ q < a.size, get sources q = pure (sources.getD q []) :=
    fun q hq => get_eq_getD (hlength ▸ hq) []
  obtain ⟨s, hs, hsweep, hdone⟩ := hstart.sweep_eq List.cons (fun q w => .refl _) hrow
    (fun p _ q hq => by
      obtain ⟨c, hc⟩ := (hmem q p).mp hq
      exact hc.source_lt) a.size (Nat.le_add_left _ _)
  have hreaches : ∀ q, Reaches (fun q => .plain (sources.getD q [])) a.accepting q ↔ a.Live q := by
    intro q
    rw [← ha.inRange.reaches_iff_live]
    exact ⟨reaches_of_subset fun p r hr => ha.inRange.mem_predecessors.mpr ((hmem r p).mp hr),
      reaches_of_subset fun p r hr => (hmem r p).mpr (ha.inRange.mem_predecessors.mp hr)⟩
  have hsize : a.live.toList.length = a.size := by simp [Automaton.live]
  have hentry : ∀ q : Nat, s.seen[q]? = some true ↔ a.live.toList[q]? = some true := by
    intro q
    rw [hsweep.seen_iff, Sweep.Marked, hdone, or_iff_left List.not_mem_nil, hsweep.mem_expanded hdone,
      hreaches, ← ha.live_iff, Array.getD_eq_getD_getElem?, Array.getElem?_toList]
    cases a.live[q]? <;> simp
  rw [live, hsources, pure_bind, hseen, pure_bind, hs, pure_bind]
  congr 1
  refine List.ext_getElem (hsweep.length_seen.trans hsize.symm) fun q hq hq' => ?_
  have := hentry q
  rw [List.getElem?_eq_getElem hq, List.getElem?_eq_getElem hq', Option.some.injEq,
    Option.some.injEq] at this
  exact Bool.eq_iff_iff.mpr this

/-- Transitions are counted without a fault where there is room for all of them. -/
theorem transitionCount_eq (h : a.transitionCount < wordLimit) :
    transitionCount a = pure a.transitionCount := by
  have hcount : ∀ (states : List State) (count : Nat),
      count + states.foldr (fun s rest => s.transitions.length + rest) 0 < wordLimit →
        states.foldlM (fun count s => add count s.transitions.length) count =
          pure (count + states.foldr (fun s rest => s.transitions.length + rest) 0) := by
    intro states
    induction states with
    | nil => exact fun _ _ => rfl
    | cons s states ih =>
      intro count hlt
      rw [List.foldr_cons, ← Nat.add_assoc] at hlt
      rw [List.foldlM_cons, add_eq (Nat.lt_of_le_of_lt (Nat.le_add_right _ _) hlt), pure_bind,
        ih _ hlt, List.foldr_cons, Nat.add_assoc]
  rw [← Nat.zero_add a.transitionCount] at h ⊢
  exact hcount _ 0 h

/-- **The check of a minimal mark does not fault.** -/
theorem isTrimmed_eq (ha : a.Valid) (hcount : a.transitionCount < wordLimit) :
    isTrimmed a = pure (Binary.isTrimmed a) := by
  obtain ⟨order, horder, hlength⟩ := reachable_eq ha
  rw [isTrimmed, Binary.isTrimmed]
  split
  · rw [transitionCount_eq hcount, pure_bind]
  · rw [horder, pure_bind, hlength, live_eq ha, pure_bind]
    cases a.reachable.length == a.size <;> rfl

/-! ## Singletons -/

section

variable {current : List Nat} {ts : List Transition} {c : Symbol} {accepted : Bool}

theorem get_live (hq : q < a.size) : get a.live.toList q = pure (a.live.getD q false) := by
  have hlt : q < a.live.size := by simpa [Automaton.live] using hq
  rw [get_eq (x := a.live[q]) (by simp [hlt]), Array.getD_eq_getD_getElem?,
    Array.getElem?_eq_getElem hlt, Option.getD_some]

theorem follow_eq (hts : ∀ t ∈ ts, t.target < a.size) :
    follow a.live.toList c ts = pure
      (if ts.all fun t => !a.live.getD t.target false || t.interval == .single c then
        some ((ts.filter fun t => a.live.getD t.target false).map (·.target)) else none) := by
  induction ts with
  | nil => rfl
  | cons t ts ih =>
    obtain ⟨ht, hts⟩ := List.forall_mem_cons.mp hts
    rw [follow, get_live ht, pure_bind, ih hts, List.all_cons, List.filter_cons]
    cases a.live.getD t.target false with
    | false => rfl
    | true =>
      cases t.interval == .single c with
      | false => rfl
      | true =>
        simp only [if_true, pure_bind, Bool.not_true, Bool.false_or, Bool.true_and]
        split <;> rfl

theorem followAll_eq (ha : a.Valid) (hcurrent : ∀ q ∈ current, q < a.size) :
    followAll a a.live.toList c current = pure
      (if current.all fun q => !a.isAccepting q && (a.transitions q).all fun t =>
          !a.live.getD t.target false || t.interval == .single c then
        some (current.flatMap fun q =>
          ((a.transitions q).filter fun t => a.live.getD t.target false).map (·.target))
      else none) := by
  induction current with
  | nil => rfl
  | cons q current ih =>
    obtain ⟨hq, hcurrent⟩ := List.forall_mem_cons.mp hcurrent
    rw [followAll, get_eq (getElem?_states hq), pure_bind, ih hcurrent, List.all_cons,
      List.flatMap_cons, isAccepting]
    cases (a.state q).accept with
    | true => rfl
    | false =>
      rw [if_neg Bool.false_ne_true, ← transitions, follow_eq (ha.target_lt q), pure_bind,
        Bool.not_false, Bool.true_and]
      cases (a.transitions q).all fun t => !a.live.getD t.target false || t.interval == .single c with
      | false => rfl
      | true =>
        simp only [if_true, pure_bind, Bool.true_and]
        split <;> rfl

theorem leadsOn_eq (hts : ∀ t ∈ ts, t.target < a.size) :
    leadsOn a.live.toList ts = pure (ts.any fun t => a.live.getD t.target false) := by
  induction ts with
  | nil => rfl
  | cons t ts ih =>
    obtain ⟨ht, hts⟩ := List.forall_mem_cons.mp hts
    rw [leadsOn, get_live ht, pure_bind, ih hts, List.any_cons]
    cases a.live.getD t.target false <;> rfl

theorem endsIn_eq (ha : a.Valid) (hcurrent : ∀ q ∈ current, q < a.size) :
    endsIn a a.live.toList accepted current = pure
      ((current.all fun q => (a.transitions q).all fun t => !a.live.getD t.target false) &&
        (accepted || current.any a.isAccepting)) := by
  induction current generalizing accepted with
  | nil => simp [endsIn]
  | cons q current ih =>
    obtain ⟨hq, hcurrent⟩ := List.forall_mem_cons.mp hcurrent
    have hnone : ((a.transitions q).all fun t => !a.live.getD t.target false) =
        !(a.transitions q).any fun t => a.live.getD t.target false := List.not_any_eq_all_not.symm
    rw [endsIn, get_eq (getElem?_states hq), pure_bind, ← transitions, leadsOn_eq (ha.target_lt q),
      pure_bind, ih hcurrent, List.all_cons, List.any_cons, isAccepting, Bool.or_assoc, hnone]
    cases (a.transitions q).any fun t => a.live.getD t.target false <;> rfl

theorem denotesFrom_eq (ha : a.Valid) (cs : List Char) (hcurrent : ∀ q ∈ current, q < a.size) :
    denotesFrom a a.live.toList current cs = pure (Binary.denotesFrom a a.live current cs) := by
  induction cs generalizing current with
  | nil =>
    rw [denotesFrom, endsIn_eq ha hcurrent, Binary.denotesFrom, Bool.false_or]
  | cons c cs ih =>
    have hnext : ∀ p ∈ onward a a.live current, p < a.size := by
      intro p hp
      obtain ⟨q, -, t, ht, -, rfl⟩ := mem_onward.mp hp
      exact ha.target_lt q t ht
    rw [denotesFrom, followAll_eq ha hcurrent, pure_bind, Binary.denotesFrom]
    split
    · rename_i next heq
      split at heq
      · rename_i hall
        obtain rfl := Option.some.inj heq
        rw [hall, Bool.true_and]
        exact ih hnext
      · cases heq
    · rename_i heq
      split at heq
      · cases heq
      · rename_i hall
        rw [Bool.eq_false_of_not_eq_true hall, Bool.false_and]

/-- **The check of a singleton does not fault.** -/
theorem denotesOnly_eq (ha : a.Valid) (text : String) :
    denotesOnly a text = pure (Binary.denotesOnly a text) := by
  have hstart : (if a.live.getD a.initial false = true then [a.initial] else []) =
      [a.initial].filter fun q => a.live.getD q false := by
    rw [List.filter_cons, List.filter_nil]
  rw [denotesOnly, live_eq ha, pure_bind, get_live ha.initial_lt, pure_bind]
  dsimp only
  rw [hstart, denotesFrom_eq ha, Binary.denotesOnly]
  intro q hq
  rw [List.mem_singleton.mp (List.mem_filter.mp hq).1]
  exact ha.initial_lt

end

end IntervalAutomata.Binary.Guarded
