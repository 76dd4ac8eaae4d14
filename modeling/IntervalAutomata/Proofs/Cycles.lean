import IntervalAutomata.CycleSearch
import IntervalAutomata.Proofs.Arrays
import IntervalAutomata.Proofs.GraphSearch

/-! # What a search for cycles finds

Each number on the stack leads to those above it, so a row that comes back to an active number closes a
cycle. Where a number is done, everything that it leads to was done before it; so no way from it goes on
for ever (`Ends`), and when the stack is empty this holds of the start. A round takes an entry out of a
row or a number off the stack, and a row is stacked only once, when its number stops being fresh; so
there is fuel until the search has its answer. -/

namespace IntervalAutomata

/-- Following `next` once or more leads from `n` back to `n`. -/
def OnCycle (next : Nat → List Nat) (n : Nat) : Prop :=
  Relation.TransGen (fun n m => m ∈ next n) n n

/-- No way along `next` goes on from `n` for ever. -/
abbrev Ends (next : Nat → List Nat) : Nat → Prop := Acc fun m n => m ∈ next n

/-- In the rows of a stack, whatever is not left to be looked at is done or has been entered from there;
`above` are the numbers that have been entered on top of the stack. -/
def LookedAt (next : Nat → List Nat) (stages : Array Stage) :
    (above : List Nat) → (stack : List (Nat × List Nat)) → Prop
  | _, [] => True
  | above, (n, row) :: stack =>
    (∀ m ∈ next n, m ∈ row ∨ m ∈ above ∨ stages.getD m .done = .done) ∧
      LookedAt next stages (n :: above) stack

/-- Where a search stands between two rounds, with what it has found out. -/
structure Descending (next : Nat → List Nat) (size start : Nat) (stack : List (Nat × List Nat))
    (stages : Array Stage) : Prop where
  size_eq : stages.size = size
  started : stages.getD start .done ≠ .fresh
  stacked : ∀ n, stages.getD n .done = .active → n ∈ stack.map Prod.fst
  reached : ∀ n ∈ stack.map Prod.fst, Leads next start n
  row_mem : ∀ entry ∈ stack, ∀ m ∈ entry.2, m ∈ next entry.1
  chain : (stack.map Prod.fst).Pairwise fun upper lower =>
    Relation.TransGen (fun n m => m ∈ next n) lower upper
  looked : LookedAt next stages [] stack
  ends : ∀ n < size, stages.getD n .done = .done → Ends next n

variable {next : Nat → List Nat} {size start n m : Nat} {row above above' : List Nat}
  {stack : List (Nat × List Nat)} {stages stages' : Array Stage}

theorem lt_size_of_stage (h : stages.getD n .done ≠ .done) : n < stages.size := by
  by_contra hout
  rw [Array.getD_eq_getD_getElem?, Array.getElem?_eq_none (Nat.le_of_not_lt hout)] at h
  exact h rfl

/-- A number outside the array is done and cannot become anything else. -/
theorem getD_stage {stage : Stage} (h : n < stages.size ∨ stage = .done) :
    (stages.setIfInBounds n stage).getD m .done = if n = m then stage else stages.getD m .done := by
  rw [getD_setIfInBounds]
  by_cases hnm : n = m
  · subst hnm
    by_cases hn : n < stages.size
    · rw [if_pos ⟨rfl, hn⟩, if_pos rfl]
    · rw [if_neg fun hc => hn hc.2, if_pos rfl, h.resolve_left hn, Array.getD_eq_getD_getElem?,
        Array.getElem?_eq_none (Nat.le_of_not_lt hn), Option.getD_none]
  · rw [if_neg fun hc => hnm hc.1, if_neg hnm]

/-- What has been entered above may be done by now. -/
theorem LookedAt.mono (h : LookedAt next stages above stack)
    (hdone : ∀ m, stages.getD m .done = .done → stages'.getD m .done = .done)
    (habove : ∀ m ∈ above, m ∈ above' ∨ stages'.getD m .done = .done) :
    LookedAt next stages' above' stack := by
  induction stack generalizing above above' with
  | nil => trivial
  | cons entry stack ih =>
    obtain ⟨hrow, hbelow⟩ := h
    refine ⟨fun m hm => ?_, ih hbelow fun m hm => ?_⟩
    · obtain hm | hm | hm := hrow m hm
      · exact .inl hm
      · exact .inr (habove m hm)
      · exact .inr (.inr (hdone m hm))
    · obtain rfl | hm := List.mem_cons.mp hm
      · exact .inl List.mem_cons_self
      · exact (habove m hm).imp_left (List.mem_cons_of_mem _)

namespace Descending

/-! ## Rounds -/

theorem beginning (next : Nat → List Nat) (hstart : start < size) :
    Descending next size start [(start, next start)]
      ((Array.replicate size .fresh).setIfInBounds start .active) where
  size_eq := by rw [Array.size_setIfInBounds, Array.size_replicate]
  started := by simp [hstart]
  stacked n hn := by
    rw [getD_setIfInBounds] at hn
    split at hn
    · rename_i hn'
      exact List.mem_singleton.mpr hn'.1.symm
    · rw [Array.getD_eq_getD_getElem?, Array.getElem?_replicate] at hn
      split at hn <;> cases hn
  reached n hn := List.mem_singleton.mp hn ▸ .refl
  row_mem entry hentry := by
    rw [List.mem_singleton.mp hentry]
    exact fun m hm => hm
  chain := List.pairwise_singleton _ _
  looked := ⟨fun _ hm => .inl hm, trivial⟩
  ends n hn hdone := by
    rw [getD_setIfInBounds] at hdone
    split at hdone
    · cases hdone
    · rw [Array.getD_eq_getD_getElem?, Array.getElem?_replicate, if_pos hn] at hdone
      cases hdone

/-- A row that leads to a done number goes on behind it. -/
theorem pass (h : Descending next size start ((n, m :: row) :: stack) stages)
    (hm : stages.getD m .done = .done) : Descending next size start ((n, row) :: stack) stages where
  size_eq := h.size_eq
  started := h.started
  stacked := h.stacked
  reached := h.reached
  row_mem := by
    obtain ⟨hrow, hbelow⟩ := List.forall_mem_cons.mp h.row_mem
    exact List.forall_mem_cons.mpr ⟨fun k hk => hrow k (.tail m hk), hbelow⟩
  chain := h.chain
  looked := by
    obtain ⟨hrow, hbelow⟩ := h.looked
    refine ⟨fun k hk => ?_, hbelow⟩
    obtain hk | hk := hrow k hk
    · obtain rfl | hk := List.mem_cons.mp hk
      · exact .inr (.inr hm)
      · exact .inl hk
    · exact .inr hk
  ends := h.ends

theorem mem_next (h : Descending next size start ((n, m :: row) :: stack) stages) : m ∈ next n :=
  h.row_mem _ (.head _) m (.head _)

/-- A fresh number is entered. -/
theorem enter (h : Descending next size start ((n, m :: row) :: stack) stages)
    (hm : stages.getD m .done = .fresh) :
    Descending next size start ((m, next m) :: (n, row) :: stack)
      (stages.setIfInBounds m .active) := by
  have hmem := h.mem_next
  have hlt : m < stages.size := lt_size_of_stage (by rw [hm]; nofun)
  have hstage : ∀ k, (stages.setIfInBounds m .active).getD k .done =
      if m = k then .active else stages.getD k .done := fun k => getD_stage (.inl hlt)
  obtain ⟨hrow, hbelow⟩ := List.forall_mem_cons.mp h.row_mem
  refine ⟨by rw [Array.size_setIfInBounds, h.size_eq], ?_, fun k hk => ?_, ?_, ?_, ?_, ?_, ?_⟩
  · rw [hstage]
    split
    · nofun
    · exact h.started
  · rw [hstage] at hk
    split at hk
    · rename_i hmk
      exact List.mem_cons.mpr (.inl hmk.symm)
    · exact .tail m (h.stacked k hk)
  · exact List.forall_mem_cons.mpr ⟨(h.reached n (.head _)).tail hmem, h.reached⟩
  · exact List.forall_mem_cons.mpr ⟨fun _ hk => hk,
      List.forall_mem_cons.mpr ⟨fun k hk => hrow k (.tail m hk), hbelow⟩⟩
  · refine List.pairwise_cons.mpr ⟨?_, h.chain⟩
    exact List.forall_mem_cons.mpr ⟨.single hmem,
      fun k hk => ((List.pairwise_cons.mp h.chain).1 k hk).tail hmem⟩
  · have hdone : ∀ k, stages.getD k .done = .done →
        (stages.setIfInBounds m .active).getD k .done = .done := by
      intro k hk
      rw [hstage, if_neg fun hmk => ?_, hk]
      rw [← hmk, hm] at hk
      cases hk
    obtain ⟨hlooked, hstack⟩ := h.looked
    refine ⟨fun _ hk => .inl hk, fun k hk => ?_, hstack.mono hdone fun k hk => .inl ?_⟩
    · obtain hk | hk | hk := hlooked k hk
      · exact (List.mem_cons.mp hk).elim (fun hkm => .inr (.inl (List.mem_singleton.mpr hkm))) .inl
      · cases hk
      · exact .inr (.inr (hdone k hk))
    · exact List.mem_cons.mpr (.inl (List.mem_singleton.mp hk))
  · intro k hk hdone
    rw [hstage] at hdone
    split at hdone
    · cases hdone
    · exact h.ends k hk hdone

/-- A number is done when its row has been looked through. -/
theorem leave (h : Descending next size start ((n, []) :: stack) stages)
    (hlt : ∀ n, ∀ m ∈ next n, m < size) :
    Descending next size start stack (stages.setIfInBounds n .done) := by
  obtain ⟨hlooked, hstack⟩ := h.looked
  have hends : Ends next n := Acc.intro n fun m hm => by
    obtain hm' | hm' | hm' := hlooked m hm
    · cases hm'
    · cases hm'
    · exact h.ends m (hlt n m hm) hm'
  have hstage : ∀ k, (stages.setIfInBounds n .done).getD k .done =
      if n = k then .done else stages.getD k .done := fun k => getD_stage (.inr rfl)
  have hdone : ∀ k, stages.getD k .done = .done →
      (stages.setIfInBounds n .done).getD k .done = .done := by
    intro k hk
    rw [hstage, hk, ite_self]
  refine ⟨by rw [Array.size_setIfInBounds, h.size_eq], ?_, fun k hk => ?_,
    (List.forall_mem_cons.mp h.reached).2, (List.forall_mem_cons.mp h.row_mem).2,
    (List.pairwise_cons.mp h.chain).2, hstack.mono hdone fun k hk => .inr ?_, fun k hk hk' => ?_⟩
  · rw [hstage]
    split
    · nofun
    · exact h.started
  · rw [hstage] at hk
    split at hk
    · cases hk
    · rename_i hnk
      exact (List.mem_cons.mp (h.stacked k hk)).resolve_left (Ne.symm hnk)
  · rw [List.mem_singleton.mp hk, hstage, if_pos rfl]
  · rw [hstage] at hk'
    split at hk'
    · rename_i hnk
      exact hnk ▸ hends
    · exact h.ends k hk hk'

/-- An active number is on the stack and leads to the topmost one. -/
theorem exists_onCycle (h : Descending next size start ((n, m :: row) :: stack) stages)
    (hm : stages.getD m .done = .active) : ∃ k, Leads next start k ∧ OnCycle next k := by
  have hmem := h.mem_next
  obtain hnm | hbelow := List.mem_cons.mp (h.stacked m hm)
  · obtain rfl : m = n := hnm
    exact ⟨m, h.reached m (.head _), .single hmem⟩
  · exact ⟨m, h.reached m (.tail n hbelow), ((List.pairwise_cons.mp h.chain).1 m hbelow).tail hmem⟩

theorem ended (h : Descending next size start [] stages) (hstart : start < size) : Ends next start := by
  refine h.ends start hstart ?_
  cases hstage : stages.getD start .done with
  | fresh => exact absurd hstage h.started
  | active => exact absurd (h.stacked start hstage) List.not_mem_nil
  | done => rfl

end Descending

/-! ## Fuel -/

def freshNumbers (stages : Array Stage) : Finset Nat :=
  {n ∈ Finset.range stages.size | stages.getD n .done = .fresh}

/-- How many rounds are left at most. -/
def workLeft (next : Nat → List Nat) (stack : List (Nat × List Nat)) (stages : Array Stage) : Nat :=
  (stack.map fun entry => entry.2.length + 1).sum + ∑ n ∈ freshNumbers stages, ((next n).length + 1)

theorem freshNumbers_setIfInBounds (stage : Stage) (hstage : stage ≠ .fresh) :
    freshNumbers (stages.setIfInBounds n stage) = (freshNumbers stages).erase n := by
  ext m
  simp only [freshNumbers, Finset.mem_filter, Finset.mem_range, Finset.mem_erase,
    Array.size_setIfInBounds, getD_setIfInBounds]
  by_cases hnm : n = m
  · subst hnm
    simp +contextual [hstage]
  · simp [hnm, Ne.symm hnm]

theorem workLeft_cons : workLeft next ((n, row) :: stack) stages =
    row.length + 1 + workLeft next stack stages := by
  rw [workLeft, workLeft, List.map_cons, List.sum_cons, Nat.add_assoc]

theorem workLeft_done :
    workLeft next stack (stages.setIfInBounds n .done) ≤ workLeft next stack stages := by
  rw [workLeft, workLeft, freshNumbers_setIfInBounds .done nofun]
  exact Nat.add_le_add_left (Finset.sum_le_sum_of_subset (Finset.erase_subset n _)) _

/-- What a fresh number costs is set aside until it is entered. -/
theorem workLeft_active (hm : stages.getD m .done = .fresh) :
    workLeft next stack (stages.setIfInBounds m .active) + ((next m).length + 1) =
      workLeft next stack stages := by
  have hlt : m < stages.size := lt_size_of_stage (by rw [hm]; nofun)
  have hfresh : m ∈ freshNumbers stages :=
    Finset.mem_filter.mpr ⟨Finset.mem_range.mpr hlt, hm⟩
  rw [workLeft, workLeft, freshNumbers_setIfInBounds .active nofun, Nat.add_assoc,
    Finset.sum_erase_add _ _ hfresh]

/-- A search with fuel for all rounds has an answer: it has met a cycle, or no way from the start goes on
for ever. -/
theorem Descending.run {fuel : Nat} (h : Descending next size start stack stages)
    (hstart : start < size) (hlt : ∀ n, ∀ m ∈ next n, m < size)
    (hfuel : workLeft next stack stages ≤ fuel) :
    ∃ cyclic, meetsCycle? next fuel stack stages = some cyclic ∧
      (cyclic = true → ∃ n, Leads next start n ∧ OnCycle next n) ∧
      (cyclic = false → Ends next start) := by
  fun_induction meetsCycle? next fuel stack stages with
  | case1 fuel stages => exact ⟨false, rfl, nofun, fun _ => h.ended hstart⟩
  | case2 entry stack stages =>
    rw [workLeft_cons] at hfuel
    omega
  | case3 fuel n stack stages ih =>
    have hless : workLeft next stack (stages.setIfInBounds n .done) ≤ workLeft next stack stages :=
      workLeft_done
    rw [workLeft_cons] at hfuel
    exact ih (h.leave hlt) (by omega)
  | case4 fuel n m row stack stages hm => exact ⟨true, rfl, fun _ => h.exists_onCycle hm, nofun⟩
  | case5 fuel n m row stack stages hm ih =>
    have hpaid : workLeft next stack (stages.setIfInBounds m .active) + ((next m).length + 1) =
      workLeft next stack stages := workLeft_active hm
    refine ih (h.enter hm) ?_
    rw [workLeft_cons, List.length_cons] at hfuel
    rw [workLeft_cons, workLeft_cons]
    omega
  | case6 fuel n m row stack stages hm ih =>
    refine ih (h.pass hm) ?_
    rw [workLeft_cons, List.length_cons] at hfuel
    rw [workLeft_cons]
    omega

/-- **A search has an answer where its fuel covers all numbers and rows.** If it is affirmative a cycle
can be reached from the start, and otherwise no way from the start goes on for ever. -/
theorem meetsCycle?_spec {fuel : Nat} (hstart : start < size) (hlt : ∀ n, ∀ m ∈ next n, m < size)
    (hfuel : ∑ n ∈ Finset.range size, ((next n).length + 1) ≤ fuel) :
    ∃ cyclic, meetsCycle? next fuel [(start, next start)]
        ((Array.replicate size .fresh).setIfInBounds start .active) = some cyclic ∧
      (cyclic = true → ∃ n, Leads next start n ∧ OnCycle next n) ∧
      (cyclic = false → Ends next start) := by
  refine (Descending.beginning next hstart).run hstart hlt (Nat.le_trans (Nat.le_of_eq ?_) hfuel)
  have hfresh : (Array.replicate size Stage.fresh).getD start .done = .fresh := by
    rw [Array.getD_eq_getD_getElem?, Array.getElem?_replicate, if_pos hstart, Option.getD_some]
  have hall : freshNumbers (Array.replicate size .fresh) = Finset.range size := by
    ext n
    simp +contextual [freshNumbers, Array.getD_eq_getD_getElem?]
  have hpaid : workLeft next [] ((Array.replicate size .fresh).setIfInBounds start .active) +
    ((next start).length + 1) = workLeft next [] (Array.replicate size .fresh) :=
    workLeft_active hfresh
  have hnone : workLeft next [] (Array.replicate size .fresh) =
      ∑ n ∈ Finset.range size, ((next n).length + 1) := by
    rw [workLeft, hall, List.map_nil, List.sum_nil, Nat.zero_add]
  rw [workLeft_cons, Nat.add_comm, hpaid, hnone]

end IntervalAutomata
