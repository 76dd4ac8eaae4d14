import IntervalAutomata.Graph.Closure
import IntervalAutomata.Proofs.GraphSearch

/-! # Following empty steps with one buffer

Between two uses no stamp is greater than the number of the last round, so at the start of a round, with
the next number, no node counts as found (`Idle`). During a round the nodes with its stamp are those that
have been taken off the stack and those that are on it, each once (`Stamped`). A round takes each node off
the stack at most once, so it comes to its end, and then what it has found is closed under empty steps:
the buffer gives the same nodes as a search that starts with nothing seen. -/

namespace IntervalAutomata.Closure

variable {g : Graph} {c : Closure} {n m start fuel : Nat} {region : Set Nat}

def Found (c : Closure) (n : Nat) : Prop := n ∈ c.members ∨ n ∈ c.stack

structure Stamped (g : Graph) (c : Closure) : Prop where
  size_eq : c.stamps.size = g.size
  stamps_le : ∀ s ∈ c.stamps, s ≤ c.generation
  stamped_iff : ∀ n < g.size, c.stamps.getD n c.generation = c.generation ↔ c.Found n
  lt : ∀ n, c.Found n → n < g.size
  nodup : (c.members.toList ++ c.stack).Nodup

/-! ## One node -/

theorem Stamped.visit (h : Stamped g c) (m : Nat) : Stamped g (c.visit m) ∧
    (c.visit m).members = c.members ∧ (c.visit m).generation = c.generation ∧
    ∀ n, (c.visit m).Found n ↔ c.Found n ∨ n = m ∧ m < g.size := by
  unfold Closure.visit
  split
  · rename_i hstamp
    refine ⟨h, rfl, rfl, fun n => (or_iff_left_of_imp ?_).symm⟩
    rintro ⟨rfl, hn⟩
    exact (h.stamped_iff n hn).mp hstamp
  · rename_i hstamp
    have hm : m < g.size := by
      by_contra hge
      refine hstamp ?_
      rw [Array.getD_eq_getD_getElem?, Array.getElem?_eq_none (by rw [h.size_eq]; omega)]
      rfl
    have hnew : ¬ c.Found m := fun hfound => hstamp ((h.stamped_iff m hm).mpr hfound)
    have hfound : ∀ n,
        Found { c with stamps := c.stamps.setIfInBounds m c.generation, stack := m :: c.stack } n ↔
          c.Found n ∨ n = m ∧ m < g.size := by
      intro n
      simp only [Found, List.mem_cons, hm, and_true]
      tauto
    refine ⟨⟨?_, ?_, fun n hn => ?_, fun n hn => ?_, ?_⟩, rfl, rfl, hfound⟩
    · rw [Array.size_setIfInBounds, h.size_eq]
    · intro s hs
      rcases Array.mem_or_eq_of_mem_setIfInBounds hs with hs | rfl
      · exact h.stamps_le s hs
      · exact Nat.le_refl _
    · rw [hfound, getD_setIfInBounds, h.size_eq]
      by_cases hnm : m = n
      · simp [hnm, hn]
      · rw [if_neg fun hc => hnm hc.1, h.stamped_iff n hn, or_iff_left fun hc => hnm hc.1.symm]
    · rcases (hfound n).mp hn with hn | ⟨rfl, -⟩
      · exact h.lt n hn
      · exact hm
    · have hperm : (c.members.toList ++ m :: c.stack).Perm (m :: (c.members.toList ++ c.stack)) :=
        List.perm_middle
      refine hperm.nodup_iff.mpr (List.nodup_cons.mpr ⟨fun hmem => hnew ?_, h.nodup⟩)
      rcases List.mem_append.mp hmem with hmem | hmem
      · exact .inl (Array.mem_toList_iff.mp hmem)
      · exact .inr hmem

theorem Stamped.foldl_visit (h : Stamped g c) (next : List Nat) : Stamped g (next.foldl Closure.visit c) ∧
    (next.foldl Closure.visit c).members = c.members ∧
    (next.foldl Closure.visit c).generation = c.generation ∧
    ∀ n, (next.foldl Closure.visit c).Found n ↔ c.Found n ∨ n ∈ next ∧ n < g.size := by
  induction next generalizing c with
  | nil => simp [h]
  | cons m next ih =>
    obtain ⟨hvisit, hmembers, hgeneration, hfound⟩ := h.visit m
    obtain ⟨hlater, hmembers', hgeneration', hfound'⟩ := ih hvisit
    refine ⟨hlater, hmembers'.trans hmembers, hgeneration'.trans hgeneration, fun n => ?_⟩
    rw [List.foldl_cons, hfound', hfound, List.mem_cons]
    constructor
    · rintro ((h | ⟨rfl, hm⟩) | ⟨h, hn⟩)
      · exact .inl h
      · exact .inr ⟨.inl rfl, hm⟩
      · exact .inr ⟨.inr h, hn⟩
    · rintro (h | ⟨rfl | h, hn⟩)
      · exact .inl (.inl h)
      · exact .inl (.inr ⟨rfl, hn⟩)
      · exact .inr ⟨h, hn⟩

/-! ## A round -/

/-- What a round has found so far can be reached from its start, and what the nodes taken lead to has
been found. -/
structure Following (g : Graph) (start : Nat) (c : Closure) : Prop extends Stamped g c where
  start_found : c.Found start
  reached : ∀ n, c.Found n → Leads (fun k => (g.node k).successors) start n
  closed : ∀ n ∈ c.members, ∀ m ∈ (g.node n).successors, m < g.size → c.Found m

theorem Following.take {stack : List Nat} (h : Following g start c) (hstack : c.stack = n :: stack) :
    let c' := (g.node n).successors.foldl Closure.visit
      { c with members := c.members.push n, stack := stack }
    Following g start c' ∧ c'.members.size = c.members.size + 1 ∧ c'.generation = c.generation := by
  have hsame : ∀ k, Found { c with members := c.members.push n, stack := stack } k ↔ c.Found k := by
    intro k
    rw [Found, Found, hstack, Array.mem_push, List.mem_cons, or_assoc]
  have hmoved : Stamped g { c with members := c.members.push n, stack := stack } := by
    refine ⟨h.size_eq, h.stamps_le, fun k hk => (h.stamped_iff k hk).trans (hsame k).symm,
      fun k hk => h.lt k ((hsame k).mp hk), ?_⟩
    have hnodup := h.nodup
    rw [hstack] at hnodup
    simpa using hnodup
  obtain ⟨hstamped, hmembers, hgeneration, hfound⟩ := hmoved.foldl_visit (g.node n).successors
  refine ⟨⟨hstamped, ?_, fun k hk => ?_, fun k hk m hm hlt => ?_⟩, ?_, hgeneration⟩
  · exact (hfound start).mpr (.inl ((hsame start).mpr h.start_found))
  · rcases (hfound k).mp hk with hk | ⟨hk, -⟩
    · exact h.reached k ((hsame k).mp hk)
    · exact (h.reached n (.inr (hstack ▸ List.mem_cons_self))).tail hk
  · rw [hmembers, Array.mem_push] at hk
    rw [hfound, hsame]
    rcases hk with hk | rfl
    · exact .inl (h.closed k hk m hm hlt)
    · exact .inr ⟨hm, hlt⟩
  · rw [hmembers, Array.size_push]

/-- **A round comes to its end**: it takes each node once. -/
theorem Following.follow (h : Following g start c) (hfuel : c.members.size + fuel = g.size + 1) :
    Following g start (Closure.follow g fuel c) ∧ (Closure.follow g fuel c).stack = [] ∧
      (Closure.follow g fuel c).generation = c.generation := by
  induction fuel generalizing c with
  | zero =>
    have hsub : c.members.toList ⊆ List.range g.size := fun n hn =>
      List.mem_range.mpr (h.lt n (.inl (Array.mem_toList_iff.mp hn)))
    have hle := (List.nodup_append.mp h.nodup).1.length_le_of_subset hsub
    rw [List.length_range, Array.length_toList] at hle
    omega
  | succ fuel ih =>
    unfold Closure.follow
    split
    · rename_i n stack hstack
      obtain ⟨hnext, hsize, hgeneration⟩ := h.take hstack
      obtain ⟨hend, hempty, hsame⟩ := ih hnext (by omega)
      exact ⟨hend, hempty, hsame.trans hgeneration⟩
    · rename_i hstack
      exact ⟨h, hstack, rfl⟩

/-! ## Round after round -/

/-- Between two rounds. -/
structure Idle (g : Graph) (c : Closure) : Prop where
  size_eq : c.stamps.size = g.size
  stamps_le : ∀ s ∈ c.stamps, s ≤ c.generation
  stack_eq : c.stack = []

theorem idle_new (g : Graph) : Idle g (new g.size) := by
  refine ⟨Array.size_replicate, fun s hs => ?_, rfl⟩
  rw [(Array.mem_replicate.mp hs).2]
  exact Nat.le_refl 0

/-- Stamps of earlier rounds are smaller, so only the start counts as found. -/
theorem Idle.following (h : Idle g c) (hstart : start < g.size) : Following g start
    { stamps := c.stamps.setIfInBounds start (c.generation + 1)
      generation := c.generation + 1
      members := #[]
      stack := start :: c.stack } := by
  have hfound : ∀ n, Found ⟨c.stamps.setIfInBounds start (c.generation + 1), c.generation + 1, #[],
      start :: c.stack⟩ n ↔ n = start := by
    intro n
    rw [Found, h.stack_eq]
    simp
  refine ⟨⟨?_, ?_, fun n hn => ?_, fun n hn => ?_, ?_⟩, ?_, ?_, ?_⟩
  · rw [Array.size_setIfInBounds, h.size_eq]
  · intro s hs
    rcases Array.mem_or_eq_of_mem_setIfInBounds hs with hs | rfl
    · exact Nat.le_succ_of_le (h.stamps_le s hs)
    · exact Nat.le_refl _
  · rw [hfound, getD_setIfInBounds, h.size_eq]
    by_cases hsn : start = n
    · simp [hsn, hn]
    · have hold : c.stamps.getD n (c.generation + 1) ≤ c.generation := by
        have hn' : n < c.stamps.size := h.size_eq ▸ hn
        rw [Array.getD_eq_getD_getElem?, Array.getElem?_eq_getElem hn', Option.getD_some]
        exact h.stamps_le _ (Array.getElem_mem hn')
      rw [if_neg fun hc => hsn hc.1]
      exact iff_of_false (fun heq => absurd (heq ▸ hold) (Nat.not_succ_le_self _)) (Ne.symm hsn)
  · exact (hfound n).mp hn ▸ hstart
  · simp [h.stack_eq]
  · exact (hfound start).mpr rfl
  · intro n hn
    rw [(hfound n).mp hn]
  · intro n hn
    simp at hn

/-- **A buffer that has been used before finds what a fresh search finds**, and can be used again. -/
theorem Idle.compute (h : Idle g c) (hclosed : g.Closed region) (hlt : ∀ n ∈ region, n < g.size)
    (hstart : start ∈ region) :
    Idle g (c.compute g start) ∧ ∀ n, n ∈ (c.compute g start).members ↔ n ∈ g.closure start := by
  obtain ⟨hend, hstack, -⟩ := (h.following (hlt start hstart)).follow (Nat.zero_add (g.size + 1))
  change Following g start (c.compute g start) at hend
  change (c.compute g start).stack = [] at hstack
  have hfound : ∀ n, Found (c.compute g start) n ↔ n ∈ (c.compute g start).members := by
    intro n
    rw [Found, hstack, or_iff_left List.not_mem_nil]
  refine ⟨⟨hend.size_eq, hend.stamps_le, hstack⟩, fun n => ?_⟩
  rw [Graph.mem_closure hclosed hlt hstart, ← hfound]
  constructor
  · exact fun hn => Graph.path_nil_iff.mpr (hend.reached n hn)
  · intro hpath
    have hleads := Graph.path_nil_iff.mp hpath
    clear hpath
    induction hleads with
    | refl => exact hend.start_found
    | @tail n m hn hm ih =>
      have hmem := hclosed.path_mem hstart (Graph.path_nil_iff.mpr (hn.tail hm))
      exact hend.closed n ((hfound n).mp ih) m hm (hlt m hmem)

end IntervalAutomata.Closure
