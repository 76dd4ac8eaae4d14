import IntervalAutomata.Proofs.Coalesce
import IntervalAutomata.Proofs.Sweep
import IntervalAutomata.Proofs.Trim

/-! # Least and canonical automata

A reachable live state accepts what remains of an accepted word, and so does the state to which the
same word leads in any other deterministic automaton for the language. So where distinct states accept
differently there are no more states than in any other one (`Least`). If besides the states are
numbered breadth first and the transitions are joined, then even numbers and transitions are determined
by the language (`Canonical.states_eq`). -/

namespace IntervalAutomata.Automaton

variable {a b d : Automaton} {p q : Nat} {u w : List Nat}

/-- No two states accept the same. -/
def Distinct (a : Automaton) : Prop :=
  ∀ p < a.size, ∀ q < a.size, a.residual p = a.residual q → p = q

/-- No deterministic automaton for the language has fewer states. -/
def Least (a : Automaton) : Prop :=
  a.Separated ∧ ∀ d : Automaton, d.Valid → d.Separated → d.language = a.language → a.size ≤ d.size

/-! ## Corresponding states -/

/-- The word that leads to a live state leads to a state with the same residual in any other
deterministic automaton for the language. -/
theorem exists_state_of_path (ha : a.Functional) (hb : b.Functional) (h : b.language = a.language)
    (hw : a.Path a.initial w p) (hlive : a.Live p) :
    ∃ q, b.Path b.initial w q ∧ b.residual q = a.residual p := by
  obtain ⟨v, hv⟩ := hlive
  have hmem : w ++ v ∈ b.language := h ▸ (ha.mem_residual_iff hw).mpr hv
  obtain ⟨q, hq, -⟩ := append_mem_residual.mp hmem
  refine ⟨q, hq, ?_⟩
  ext v
  rw [← hb.mem_residual_iff hq, ← ha.mem_residual_iff hw]
  show w ++ v ∈ b.language ↔ w ++ v ∈ a.language
  rw [h]

/-- A map of states that keeps residuals. -/
structure Embeds (f : Nat → Nat) (a b : Automaton) : Prop where
  lt : ∀ p < a.size, f p < b.size
  residual_eq : ∀ p < a.size, b.residual (f p) = a.residual p

theorem Trimmed.exists_embedding (ht : a.Trimmed) (ha : a.Functional) (hv : b.Valid)
    (hb : b.Functional) (h : b.language = a.language) : ∃ f, Embeds f a b := by
  have hstate : ∀ p, ∃ q, p < a.size → q < b.size ∧ b.residual q = a.residual p := by
    intro p
    by_cases hp : p < a.size
    · obtain ⟨⟨w, hw⟩, hlive⟩ := ht p hp
      obtain ⟨q, hq, heq⟩ := exists_state_of_path ha hb h hw hlive
      exact ⟨q, fun _ => ⟨hv.path_lt hq hv.initial_lt, heq⟩⟩
    · exact ⟨0, fun hp' => absurd hp' hp⟩
  choose f hf using hstate
  exact ⟨f, fun p hp => (hf p hp).1, fun p hp => (hf p hp).2⟩

theorem Distinct.injOn (hd : a.Distinct) {f : Nat → Nat} (hf : Embeds f a b) :
    Set.InjOn f {p | p < a.size} := by
  intro p hp q hq heq
  refine hd p hp q hq ?_
  rw [← hf.residual_eq p hp, ← hf.residual_eq q hq, heq]

theorem Distinct.size_le (hd : a.Distinct) {f : Nat → Nat} (hf : Embeds f a b) :
    a.size ≤ b.size := by
  have hcard := Finset.card_le_card_of_injOn (s := Finset.range a.size) (t := Finset.range b.size) f
    (fun p hp => by simpa using hf.lt p (by simpa using hp))
    fun p hp q hq heq => hd.injOn hf (by simpa using hp) (by simpa using hq) heq
  simpa using hcard

/-- When there are no more states to map to, all of them are reached, and they are distinct too. -/
theorem Distinct.of_embedding (hd : a.Distinct) {f : Nat → Nat} (hf : Embeds f a b)
    (hle : b.size ≤ a.size) : b.Distinct := by
  have honto : ∀ q < b.size, ∃ p < a.size, f p = q := by
    have hsurj := Finset.surjOn_of_injOn_of_card_le (s := Finset.range a.size)
      (t := Finset.range b.size) f (fun p hp => by simpa using hf.lt p (by simpa using hp))
      (fun p hp q hq heq => hd.injOn hf (by simpa using hp) (by simpa using hq) heq)
      (by simpa using hle)
    intro q hq
    obtain ⟨p, hp, hpq⟩ := hsurj (Finset.mem_coe.mpr (Finset.mem_range.mpr hq))
    exact ⟨p, Finset.mem_range.mp hp, hpq⟩
  intro q hq r hr heq
  obtain ⟨p, hp, rfl⟩ := honto q hq
  obtain ⟨s, hs, rfl⟩ := honto r hr
  rw [hf.residual_eq p hp, hf.residual_eq s hs] at heq
  rw [hd p hp s hs heq]

/-! ## The canonical automaton -/

/-- Joined transitions, breadth-first numbers, and nothing superfluous. When nothing is accepted the
initial state stays, without transitions. -/
structure Canonical (a : Automaton) : Prop extends Valid a where
  initial_eq : a.initial = 0
  apart : ∀ q, Apart (a.transitions q)
  joined : ∀ q, Joined (a.transitions q)
  breadthFirst : BreadthFirst a.targets a.size
  distinct : a.Distinct
  live : a.states = #[{}] ∨ ∀ q < a.size, a.Live q

theorem Canonical.separated (h : a.Canonical) : a.Separated := separated_of_apart h.apart

theorem Canonical.functional (h : a.Canonical) : a.Functional := h.toValid.functional h.separated

theorem Canonical.reachable (h : a.Canonical) (hq : q < a.size) : a.Reachable q := by
  have := reachable_eq_range h.initial_eq h.breadthFirst
  rw [← h.toValid.mem_reachable, this]
  exact List.mem_range.mpr hq

theorem Canonical.trimmed (h : a.Canonical) (hlive : ∀ q < a.size, a.Live q) : a.Trimmed :=
  fun q hq => ⟨h.reachable hq, hlive q hq⟩

theorem Canonical.congr {d : Automaton} (h : a.Canonical) (hstates : a.states = d.states)
    (hinitial : a.initial = d.initial) : d.Canonical := by
  have htransitions : ∀ q, d.transitions q = a.transitions q := fun q => by
    rw [transitions, transitions, state_congr hstates]
  have htargets : d.targets = a.targets := funext fun q => by rw [targets, targets, htransitions]
  have hsize : d.size = a.size := by rw [size, size, hstates]
  have hresidual : ∀ q, d.residual q = a.residual q := fun q => (residual_congr hstates).symm
  refine ⟨h.toValid.congr hstates hinitial, hinitial ▸ h.initial_eq,
    fun q => htransitions q ▸ h.apart q, fun q => htransitions q ▸ h.joined q, ?_, ?_, ?_⟩
  · rw [htargets, hsize]
    exact h.breadthFirst
  · intro p hp q hq heq
    rw [hresidual, hresidual] at heq
    exact h.distinct p (hsize ▸ hp) q (hsize ▸ hq) heq
  · rw [← hstates, hsize]
    refine h.live.imp id fun hlive q hq => ?_
    obtain ⟨w, hw⟩ := hlive q hq
    exact ⟨w, hresidual q ▸ hw⟩

/-- A canonical automaton is the least one for its language. -/
theorem Canonical.least (h : a.Canonical) : a.Least := by
  refine ⟨h.separated, fun d hd hs hlanguage => ?_⟩
  rcases h.live with hbare | hlive
  · rw [size, hbare]
    exact Nat.lt_of_le_of_lt (Nat.zero_le _) hd.initial_lt
  · obtain ⟨f, hf⟩ := (h.trimmed hlive).exists_embedding h.functional hd (hd.functional hs) hlanguage
    exact h.distinct.size_le hf

theorem language_bare (h : a.states = #[{}]) : a.language = 0 := by
  refine not_live_initial_iff.mp fun ⟨w, hw⟩ => not_live_empty a.initial ⟨w, ?_⟩
  rwa [residual_congr (b := a)]
  exact h.symm

theorem distinct_of_size_le_one (h : a.size ≤ 1) : a.Distinct := fun p hp q hq _ => by omega

/-! ## Uniqueness -/

section

variable {f : Nat → Nat} {c : Nat}

theorem Functional.cons_mem_iff (ha : a.Functional) (hs : a.Step p c q) :
    c :: w ∈ a.residual p ↔ w ∈ a.residual q :=
  ha.mem_residual_iff (u := [c]) (.cons hs (.nil q))

/-- Corresponding states move alike. -/
theorem Embeds.step_iff (hf : Embeds f a b) (ha : a.Canonical) (hb : b.Canonical)
    (hlive : ∀ q < a.size, a.Live q) (hlive' : ∀ q < b.size, b.Live q) (hp : p < a.size) :
    b.Step (f p) c q ↔ ∃ r, a.Step p c r ∧ f r = q := by
  have hsame : ∀ {q r}, b.Step (f p) c q → a.Step p c r → f r = q := by
    intro q r hq hr
    have hrlt := ha.toValid.step_lt hr
    refine hb.distinct _ (hf.lt r hrlt) _ (hb.toValid.step_lt hq) ?_
    ext w
    rw [hf.residual_eq r hrlt, ← ha.functional.cons_mem_iff hr, ← hb.functional.cons_mem_iff hq,
      hf.residual_eq p hp]
  constructor
  · intro hq
    obtain ⟨w, hw⟩ := hlive' q (hb.toValid.step_lt hq)
    rw [← hb.functional.cons_mem_iff hq, hf.residual_eq p hp, cons_mem_residual] at hw
    obtain ⟨r, hr, -⟩ := hw
    exact ⟨r, hr, hsame hq hr⟩
  · rintro ⟨r, hr, rfl⟩
    obtain ⟨w, hw⟩ := hlive r (ha.toValid.step_lt hr)
    rw [← ha.functional.cons_mem_iff hr, ← hf.residual_eq p hp, cons_mem_residual] at hw
    obtain ⟨q, hq, -⟩ := hw
    exact hsame hq hr ▸ hq

/-- Corresponding states have the same transitions up to the numbers of their targets. -/
theorem Embeds.transitions_eq (hf : Embeds f a b) (ha : a.Canonical) (hb : b.Canonical)
    (hlive : ∀ q < a.size, a.Live q) (hlive' : ∀ q < b.size, b.Live q) (hp : p < a.size) :
    b.transitions (f p) = (a.transitions p).map fun t => ⟨t.interval, f t.target⟩ := by
  refine Joined.eq_of_moves (hb.apart _) (hb.joined _) (hb.proper _) ?_ ?_ ?_ fun c q => ?_
  · exact List.pairwise_map.mpr (ha.apart p)
  · refine List.pairwise_map.mpr ((ha.joined p).imp_of_mem fun {s t} hs ht hst heq => hst ?_)
    exact ha.distinct.injOn hf (ha.target_lt p s hs) (ha.target_lt p t ht) heq
  · intro t ht
    obtain ⟨s, hs, rfl⟩ := List.mem_map.mp ht
    exact ha.proper p s hs
  · refine (hf.step_iff ha hb hlive hlive' hp).trans ?_
    simp only [Moves, List.mem_map, Step]
    constructor
    · rintro ⟨_, ⟨t, ht, hc, rfl⟩, rfl⟩
      exact ⟨_, ⟨t, ht, rfl⟩, hc, rfl⟩
    · rintro ⟨_, ⟨t, ht, rfl⟩, hc, rfl⟩
      exact ⟨_, ⟨t, ht, hc, rfl⟩, rfl⟩

end

/-- **Canonical automata for one language have the same states.** -/
theorem Canonical.states_eq (ha : a.Canonical) (hb : b.Canonical) (h : a.language = b.language) :
    a.states = b.states := by
  have hinitial : ∀ {a : Automaton}, a.Canonical → (∀ q < a.size, a.Live q) → a.language ≠ 0 := by
    intro a ha hlive hzero
    exact not_live_initial_iff.mpr hzero (hlive _ ha.initial_lt)
  rcases ha.live with hbare | hlive
  · rcases hb.live with hbare' | hlive'
    · rw [hbare, hbare']
    · exact absurd (h ▸ language_bare hbare) (hinitial hb hlive')
  rcases hb.live with hbare' | hlive'
  · exact absurd (h.symm ▸ language_bare hbare') (hinitial ha hlive)
  obtain ⟨f, hf⟩ :=
    (ha.trimmed hlive).exists_embedding ha.functional hb.toValid hb.functional h.symm
  obtain ⟨g, hg⟩ :=
    (hb.trimmed hlive').exists_embedding hb.functional ha.toValid ha.functional h
  have hsize : a.size = b.size := Nat.le_antisymm (ha.distinct.size_le hf) (hb.distinct.size_le hg)
  have hfixed : ∀ q < a.size, q < a.size ∧ f q = q := by
    refine ha.breadthFirst.rigid b.targets f (· < a.size) ?_ ?_ ?_ ?_ ?_ ?_
    · exact fun p q hp hq heq => ha.distinct.injOn hf hp hq heq
    · exact ha.initial_eq ▸ ha.initial_lt
    · have hlt := ha.initial_lt
      refine hb.distinct _ (hf.lt 0 (ha.initial_eq ▸ hlt)) _ (hb.initial_eq ▸ hb.initial_lt) ?_
      rw [hf.residual_eq 0 (ha.initial_eq ▸ hlt)]
      rw [language, language, ha.initial_eq, hb.initial_eq] at h
      exact h
    · intro q _ t ht
      obtain ⟨c, hs⟩ := (mem_targets_iff ha.toValid).mp ht
      exact ha.toValid.step_lt hs
    · intro q hq
      rw [targets, targets, hf.transitions_eq ha hb hlive hlive' hq, List.map_map, List.map_map]
      rfl
    · exact fun q hq => hb.breadthFirst.inOrder _ (hf.lt q hq)
  refine Array.ext hsize fun q hq hq' => ?_
  have hfq := (hfixed q hq).2
  have htransitions := hf.transitions_eq ha hb hlive hlive' hq
  have hresidual := hf.residual_eq q hq
  rw [hfq] at htransitions hresidual
  rw [getElem_states hq, getElem_states hq']
  have haccept : a.isAccepting q = b.isAccepting q := by
    rw [Bool.eq_iff_iff, ← nil_mem_residual, ← nil_mem_residual, hresidual]
  have htargets : b.transitions q = a.transitions q := by
    rw [htransitions]
    refine (List.map_congr_left fun t ht => ?_).trans (List.map_id _)
    rw [(hfixed _ (ha.target_lt q t ht)).2]
    rfl
  show (⟨a.isAccepting q, a.transitions q⟩ : State) = ⟨b.isAccepting q, b.transitions q⟩
  rw [haccept, htargets]

end IntervalAutomata.Automaton
