import IntervalAutomata.Proofs.Arrays
import IntervalAutomata.Proofs.GraphPaths
import Mathlib.Algebra.Order.BigOperators.Group.Finset
import Mathlib.Logic.Relation

/-! # What a depth-first search finds

Everything found or stacked can be reached from the starts, and what a found number leads to has been
found or is on the stack (`Searching`); so when the stack is empty, the numbers found are exactly those
that can be reached. Each round takes one number off the stack and pays for what it stacks with wires
of a number that was not seen before, so there is fuel until the stack is empty. -/

namespace IntervalAutomata

/-- Following `next` any number of times leads from `n` to `m`. -/
abbrev Leads (next : Nat → List Nat) : Nat → Nat → Prop := Relation.ReflTransGen fun n m => m ∈ next n

structure Searching (next : Nat → List Nat) (size : Nat) (starts stack : List Nat) (seen : Array Bool)
    (found : List Nat) : Prop where
  size_eq : seen.size = size
  seen_iff : ∀ n < size, seen.getD n true = true ↔ n ∈ found
  lt : ∀ n ∈ found, n < size
  nodup : found.Nodup
  reached : ∀ n, n ∈ found ∨ n ∈ stack → ∃ s ∈ starts, Leads next s n
  starts_mem : ∀ n ∈ starts, n < size → n ∈ found ∨ n ∈ stack
  closed : ∀ n ∈ found, ∀ m ∈ next n, m < size → m ∈ found ∨ m ∈ stack

section

variable {next : Nat → List Nat} {size n m : Nat} {starts stack found : List Nat} {seen : Array Bool}

theorem searching_start (next : Nat → List Nat) (size : Nat) (starts : List Nat) :
    Searching next size starts starts (Array.replicate size false) [] where
  size_eq := Array.size_replicate
  seen_iff n hn := by simp [Array.getD_eq_getD_getElem?, hn]
  lt := nofun
  nodup := List.nodup_nil
  reached n hn := ⟨n, hn.resolve_left List.not_mem_nil, .refl⟩
  starts_mem _ hn _ := .inr hn
  closed := nofun

theorem Searching.seen_iff_lt (h : Searching next size starts stack seen found) :
    seen.getD n true = true ↔ (n < size → n ∈ found) := by
  by_cases hn : n < size
  · rw [h.seen_iff n hn, imp_iff_right hn]
  · have hout : seen[n]? = none := Array.getElem?_eq_none (by rw [h.size_eq]; omega)
    simp [Array.getD_eq_getD_getElem?, hout, hn]

theorem Searching.skip (h : Searching next size starts (n :: stack) seen found)
    (hn : seen.getD n true = true) : Searching next size starts stack seen found := by
  rw [h.seen_iff_lt] at hn
  have hdrop : ∀ m < size, m ∈ found ∨ m ∈ n :: stack → m ∈ found ∨ m ∈ stack := by
    rintro m hm (hm' | hm')
    · exact .inl hm'
    · rcases List.mem_cons.mp hm' with rfl | hm'
      · exact .inl (hn hm)
      · exact .inr hm'
  exact ⟨h.size_eq, h.seen_iff, h.lt, h.nodup,
    fun m hm => h.reached m (hm.imp_right (List.mem_cons_of_mem _)),
    fun m hm hlt => hdrop m hlt (h.starts_mem m hm hlt),
    fun k hk m hm hlt => hdrop m hlt (h.closed k hk m hm hlt)⟩

theorem Searching.take (h : Searching next size starts (n :: stack) seen found)
    (hn : ¬ seen.getD n true = true) :
    Searching next size starts ((next n).reverse ++ stack) (seen.setIfInBounds n true)
      (n :: found) := by
  have hnew : n < size ∧ n ∉ found := by
    rw [h.seen_iff_lt] at hn
    exact Classical.not_imp.mp hn
  have hreached := h.reached n (.inr List.mem_cons_self)
  have hgrow : ∀ m, m ∈ found ∨ m ∈ n :: stack → m ∈ n :: found ∨ m ∈ (next n).reverse ++ stack := by
    intro m hm
    simp only [List.mem_cons, List.mem_append] at hm ⊢
    tauto
  refine ⟨by rw [Array.size_setIfInBounds, h.size_eq], fun m hm => ?_, fun m hm => ?_,
    List.nodup_cons.mpr ⟨hnew.2, h.nodup⟩, fun m hm => ?_,
    fun m hm hlt => hgrow m (h.starts_mem m hm hlt), fun k hk m hm hlt => ?_⟩
  · rw [getD_setIfInBounds, h.size_eq, List.mem_cons]
    by_cases hnm : n = m
    · simp [hnm, hm]
    · rw [if_neg fun hc => hnm hc.1, h.seen_iff m hm, or_iff_right (Ne.symm hnm)]
  · rcases List.mem_cons.mp hm with rfl | hm
    · exact hnew.1
    · exact h.lt m hm
  · rcases hm with hm | hm
    · rcases List.mem_cons.mp hm with rfl | hm
      · exact hreached
      · exact h.reached m (.inl hm)
    · rcases List.mem_append.mp hm with hm | hm
      · obtain ⟨s, hs, hsn⟩ := hreached
        exact ⟨s, hs, hsn.tail (List.mem_reverse.mp hm)⟩
      · exact h.reached m (.inr (List.mem_cons_of_mem _ hm))
  · rcases List.mem_cons.mp hk with rfl | hk
    · exact .inr (List.mem_append_left _ (List.mem_reverse.mpr hm))
    · exact hgrow m (h.closed k hk m hm hlt)

/-! ## Rounds -/

def unseen (seen : Array Bool) : Finset Nat := {n ∈ Finset.range seen.size | seen.getD n true = false}

/-- How many rounds are left at most. -/
def roundsLeft (next : Nat → List Nat) (stack : List Nat) (seen : Array Bool) : Nat :=
  stack.length + ∑ n ∈ unseen seen, (next n).length

theorem lt_size_of_getD (hn : ¬ seen.getD n true = true) : n < seen.size := by
  by_contra hge
  exact hn (by simp [Array.getD_eq_getD_getElem?, Array.getElem?_eq_none (Nat.le_of_not_lt hge)])

theorem roundsLeft_take (hn : ¬ seen.getD n true = true) :
    roundsLeft next ((next n).reverse ++ stack) (seen.setIfInBounds n true) + 1 =
      roundsLeft next (n :: stack) seen := by
  have hlt := lt_size_of_getD hn
  have hmem : n ∈ unseen seen := by
    simpa [unseen, hlt] using hn
  have herase : unseen (seen.setIfInBounds n true) = (unseen seen).erase n := by
    ext m
    simp only [unseen, Finset.mem_filter, Finset.mem_range, Finset.mem_erase,
      Array.size_setIfInBounds, getD_setIfInBounds]
    by_cases hnm : n = m
    · subst hnm
      simp +contextual
    · simp [hnm, Ne.symm hnm]
  have hsum := Finset.add_sum_erase (unseen seen) (fun n => (next n).length) hmem
  rw [roundsLeft, roundsLeft, herase, List.length_append, List.length_reverse, List.length_cons]
  omega

/-- A search with fuel for all rounds ends with an empty stack. -/
theorem Searching.run {fuel : Nat} (h : Searching next size starts stack seen found)
    (hfuel : roundsLeft next stack seen < fuel) :
    ∃ seen' found', depthFirst next fuel stack seen found = found'.reverse ∧
      Searching next size starts [] seen' found' := by
  fun_induction depthFirst next fuel stack seen found with
  | case1 fuel n stack seen found hn ih =>
    refine ih (h.skip hn) ?_
    rw [roundsLeft, List.length_cons] at hfuel
    unfold roundsLeft
    omega
  | case2 fuel n stack seen found hn ih =>
    refine ih (h.take hn) ?_
    have hpaid : roundsLeft next _ _ + 1 = roundsLeft next (n :: stack) seen := roundsLeft_take hn
    omega
  | case3 fuel stack seen found hnone =>
    match fuel, stack, hnone with
    | 0, _, _ => exact absurd hfuel (Nat.not_lt_zero _)
    | _ + 1, [], _ => exact ⟨seen, found, rfl, h⟩
    | fuel + 1, n :: stack, hnone => exact (hnone fuel n stack rfl rfl).elim

/-- Searches take the same course where they follow the same wires and have seen the same numbers. -/
theorem depthFirst_congr {next' : Nat → List Nat} {inside : Set Nat} {fuel fuel' : Nat}
    {seen' : Array Bool} (hclosed : ∀ n ∈ inside, ∀ m ∈ next n, m ∈ inside)
    (hnext : ∀ n ∈ inside, next' n = next n) (hstack : ∀ n ∈ stack, n ∈ inside)
    (hseen : ∀ n ∈ inside, seen'.getD n true = seen.getD n true)
    (hfuel : roundsLeft next stack seen < fuel) (hle : fuel ≤ fuel') :
    depthFirst next' fuel' stack seen' found = depthFirst next fuel stack seen found := by
  fun_induction depthFirst next fuel stack seen found generalizing fuel' seen' with
  | case1 fuel n stack seen found hn ih =>
    obtain ⟨fuel', rfl⟩ := Nat.exists_eq_add_of_le' hle
    obtain ⟨hin, hstack⟩ := List.forall_mem_cons.mp hstack
    change depthFirst next' (fuel' + fuel + 1) _ _ _ = _
    rw [depthFirst, if_pos ((hseen n hin).trans hn)]
    refine ih hstack hseen ?_ (by omega)
    rw [roundsLeft, List.length_cons] at hfuel
    unfold roundsLeft
    omega
  | case2 fuel n stack seen found hn ih =>
    obtain ⟨fuel', rfl⟩ := Nat.exists_eq_add_of_le' hle
    obtain ⟨hin, hstack⟩ := List.forall_mem_cons.mp hstack
    have hn' : ¬ seen'.getD n true = true := by rwa [hseen n hin]
    change depthFirst next' (fuel' + fuel + 1) _ _ _ = _
    rw [depthFirst, if_neg hn', hnext n hin]
    refine ih (fun m hm => ?_) (fun m hm => ?_) ?_ (by omega)
    · rcases List.mem_append.mp hm with hm | hm
      · exact hclosed n hin m (List.mem_reverse.mp hm)
      · exact hstack m hm
    · have hlt := lt_size_of_getD hn
      have hlt' := lt_size_of_getD hn'
      rw [getD_setIfInBounds, getD_setIfInBounds, hseen m hm]
      by_cases hnm : n = m
      · rw [if_pos ⟨hnm, hnm ▸ hlt'⟩, if_pos ⟨hnm, hnm ▸ hlt⟩]
      · rw [if_neg fun h => hnm h.1, if_neg fun h => hnm h.1]
    · have hpaid : roundsLeft next _ _ + 1 = roundsLeft next (n :: stack) seen := roundsLeft_take hn
      omega
  | case3 fuel stack seen found hnone =>
    cases fuel with
    | zero => exact absurd hfuel (Nat.not_lt_zero _)
    | succ fuel =>
      cases stack with
      | nil =>
        obtain ⟨fuel', rfl⟩ := Nat.exists_eq_add_of_le' hle
        rfl
      | cons n stack => exact (hnone fuel n stack rfl rfl).elim

theorem depthFirst_nil {fuel : Nat} : depthFirst next fuel [] seen found = found.reverse := by
  cases fuel <;> rfl

theorem Searching.mem_iff (h : Searching next size starts [] seen found)
    (hlt : ∀ n, (∃ s ∈ starts, Leads next s n) → n < size) :
    n ∈ found ↔ ∃ s ∈ starts, Leads next s n := by
  refine ⟨fun hn => h.reached n (.inl hn), ?_⟩
  intro ⟨s, hs, hsn⟩
  induction hsn with
  | refl =>
    exact (h.starts_mem s hs (hlt s ⟨s, hs, .refl⟩)).resolve_right List.not_mem_nil
  | @tail n m hsn hnm ih =>
    exact (h.closed n ih m hnm (hlt m ⟨s, hs, hsn.tail hnm⟩)).resolve_right List.not_mem_nil

end

/-! ## Searching a graph -/

namespace Graph

variable {g : Graph} {n m : Nat} {starts : List Nat} {next : Nat → List Nat} {region : Set Nat}

theorem wireCount_eq (g : Graph) :
    g.wireCount = ∑ n ∈ Finset.range g.size, (g.wires n).length := by
  have hsum : g.wireCount =
      (g.nodes.toList.map fun n => n.edges.length + n.successors.length).sum := by
    rw [wireCount, List.sum_eq_foldr, List.foldr_map]
  rw [hsum, sum_map_toList _ _ {}, size]
  refine Finset.sum_congr rfl fun n _ => ?_
  rw [wires, List.length_append, List.length_map]
  rfl

/-- The fuel of a search is enough for all rounds. -/
theorem roundsLeft_search (hnext : ∀ n < g.size, (next n).length ≤ (g.wires n).length) :
    roundsLeft next starts (Array.replicate g.size false) < starts.length + g.wireCount + 1 := by
  rw [roundsLeft, wireCount_eq]
  have hsub : unseen (Array.replicate g.size false) ⊆ Finset.range g.size := by
    intro n hn
    simpa using (Finset.mem_filter.mp hn).1
  have := (Finset.sum_le_sum_of_subset (f := fun n => (next n).length) hsub).trans
    (Finset.sum_le_sum fun n hn => hnext n (Finset.mem_range.mp hn))
  omega

/-- A search along wires that stays in a region finds what can be reached, each node once. -/
theorem search_spec (hnext : ∀ n < g.size, (next n).length ≤ (g.wires n).length)
    (hlt : ∀ n, (∃ s ∈ starts, Leads next s n) → n < g.size) :
    (g.search next starts).Nodup ∧
      ∀ n, n ∈ g.search next starts ↔ ∃ s ∈ starts, Leads next s n := by
  obtain ⟨seen, found, heq, h⟩ :=
    (searching_start next g.size starts).run (roundsLeft_search hnext)
  rw [search, heq]
  exact ⟨List.nodup_reverse.mpr h.nodup, fun n => by rw [List.mem_reverse, h.mem_iff hlt]⟩

/-- Nodes added behind a region do not change what is found in it, nor the order. -/
theorem search_wires_congr {g' : Graph} (hclosed : g.Closed region) (hlt : ∀ n ∈ region, n < g.size)
    (hsize : g.size ≤ g'.size) (hnode : ∀ n < g.size, g'.node n = g.node n)
    (hstarts : ∀ n ∈ starts, n ∈ region) : g'.search g'.wires starts = g.search g.wires starts := by
  have hcount : g.wireCount ≤ g'.wireCount := by
    rw [wireCount_eq, wireCount_eq]
    calc ∑ n ∈ Finset.range g.size, (g.wires n).length
        = ∑ n ∈ Finset.range g.size, (g'.wires n).length :=
          Finset.sum_congr rfl fun n hn => by rw [wires_congr (hnode n (Finset.mem_range.mp hn))]
      _ ≤ ∑ n ∈ Finset.range g'.size, (g'.wires n).length :=
          Finset.sum_le_sum_of_subset (Finset.range_subset_range.mpr hsize)
  refine depthFirst_congr hclosed (fun n hn => wires_congr (hnode n (hlt n hn))) hstarts
    (fun n hn => ?_) (roundsLeft_search fun _ _ => Nat.le_refl _) (by omega)
  have hn := hlt n hn
  simp [Array.getD_eq_getD_getElem?, hn, Nat.lt_of_lt_of_le hn hsize]

theorem length_successors_le (g : Graph) (n : Nat) :
    (g.node n).successors.length ≤ (g.wires n).length := by
  rw [wires, List.length_append]
  exact Nat.le_add_left _ _

theorem Closed.leads (hclosed : g.Closed region) (hn : n ∈ region) (h : Leads g.wires n m) :
    m ∈ region := by
  induction h with
  | refl => exact hn
  | tail _ hm ih => exact hclosed _ ih _ hm

/-- What the entry and the exit of a fragment lead to. -/
def nodesOf (g : Graph) (f : Fragment) : Set Nat :=
  {n | Leads g.wires f.entry n ∨ Leads g.wires f.exit n}

theorem Closed.nodesOf_subset {f : Fragment} (hclosed : g.Closed region) (hentry : f.entry ∈ region)
    (hexit : f.exit ∈ region) : g.nodesOf f ⊆ region :=
  fun _ hn => hn.elim (hclosed.leads hentry) (hclosed.leads hexit)

theorem closed_nodesOf (g : Graph) (f : Fragment) : g.Closed (g.nodesOf f) :=
  fun _ hn _ hm => hn.imp (·.tail hm) (·.tail hm)

theorem path_nil_iff : g.Path n [] m ↔ Leads (fun k => (g.node k).successors) n m := by
  constructor
  · intro h
    generalize hw : ([] : List Symbol) = w at h
    induction h with
    | nil => exact .refl
    | skip hk _ ih => exact .head hk (ih hw)
    | read => cases hw
  · intro h
    induction h using Relation.ReflTransGen.head_induction_on with
    | refl => exact .nil m
    | head hk _ ih => exact .skip hk ih

/-- The closure of a node is where the empty word leads. -/
theorem mem_closure (hclosed : g.Closed region) (hlt : ∀ n ∈ region, n < g.size) (hn : n ∈ region) :
    m ∈ g.closure n ↔ g.Path n [] m := by
  rw [closure, (search_spec (fun n _ => g.length_successors_le n) ?_).2, path_nil_iff]
  · simp
  · intro m ⟨s, hs, hm⟩
    rw [List.mem_singleton.mp hs] at hm
    exact hlt m (hclosed.path_mem hn (path_nil_iff.mpr hm))

/-- Before a search nothing has been seen. -/
theorem unseen_start (hn : n < g.size) : ¬ (Array.replicate g.size false).getD n true = true := by
  simp [Array.getD_eq_getD_getElem?, hn]

theorem closure_of_nil (hn : n < g.size) (h : (g.node n).successors = []) : g.closure n = [n] := by
  rw [closure, search, depthFirst, if_neg (unseen_start hn), h]
  exact depthFirst_nil

/-- One empty step and none behind it. -/
theorem closure_of_single (hn : n < g.size) (hm : m < g.size) (hne : n ≠ m)
    (h : (g.node n).successors = [m]) (h' : (g.node m).successors = []) : g.closure n = [n, m] := by
  have hnew : ¬ ((Array.replicate g.size false).setIfInBounds n true).getD m true = true := by
    rw [getD_setIfInBounds, if_neg fun h => hne h.1]
    exact unseen_start hm
  rw [closure, search, depthFirst, if_neg (unseen_start hn), h, List.length_singleton, Nat.add_comm 1]
  show depthFirst _ (g.wireCount + 1) [m] _ _ = _
  rw [depthFirst, if_neg hnew, h']
  exact depthFirst_nil

end Graph

end IntervalAutomata
