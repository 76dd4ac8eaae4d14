import IntervalAutomata.Proofs.Acceptors
import IntervalAutomata.Proofs.Refinement
import IntervalAutomata.Proofs.SubsetConstruction

/-! # Minimization

The blocks of a refined partition are the residuals of the states, so any member of a block can stand
for it, and the automaton over the blocks accepts from each block what its members accept. Blocks of
states that are reachable and live make it canonical: distinct blocks accept differently, and the
exploration numbers them breadth first and joins their transitions. -/

namespace IntervalAutomata.Automaton

open Exploration

variable {a m : Automaton} {b c q i : Nat} {w : List Nat}

variable {p : Partition} {e : Exploration Nat Interval compare}

/-! ## Blocks -/

/-- The member that stands for a block. -/
def representative (p : Partition) (b : Nat) : Nat := (p.members b).headD 0

theorem Classifies.representative_spec (hp : a.Classifies p) (hb : b < p.blocks.size) :
    representative p b < a.size + 1 ∧ p.blockOf (representative p b) = b := by
  obtain ⟨x, hx, hxb, -⟩ := hp.clean.exists_member hb
  have hmem : representative p b ∈ p.members b := by
    unfold representative
    cases h : p.members b with
    | nil =>
      have := (hp.clean.mem_members hb).mpr ⟨hx, hxb⟩
      rw [h] at this
      cases this
    | cons y ys => exact List.mem_cons_self
  exact (hp.clean.mem_members hb).mp hmem

/-- The member that stands for the block of `q` accepts what `q` accepts. -/
theorem Classifies.residual_representative (hp : a.Classifies p) (hq : q < a.size) :
    a.residual (representative p (p.blockOf q)) = a.residual q := by
  have hq' := Nat.lt_succ_of_lt hq
  obtain ⟨hlt, hblock⟩ := hp.representative_spec (hp.clean.blockOf_lt q hq')
  exact (hp.same_iff _ hlt _ hq').mp hblock

theorem edges_blockRow (a : Automaton) (p : Partition) (b : Nat) : (a.blockRow p b).edges =
    (a.transitions (representative p b)).map fun t => (t.interval, p.blockOf t.target) := rfl

theorem leads_blockRow : (a.blockRow p b).Leads c i ↔
    ∃ r, a.Step (representative p b) c r ∧ p.blockOf r = i := by
  simp only [Row.Leads, edges_blockRow, List.mem_map]
  constructor
  · rintro ⟨_, ⟨t, ht, rfl⟩, hc, rfl⟩
    exact ⟨_, ⟨t, ht, hc, rfl⟩, rfl⟩
  · rintro ⟨_, ⟨t, ht, hc, rfl⟩, rfl⟩
    exact ⟨_, ⟨t, ht, rfl⟩, hc, rfl⟩

theorem Valid.proper_blockRow (ha : a.Valid) (p : Partition) (b : Nat) :
    (a.blockRow p b).Proper := by
  intro d hd
  rw [edges_blockRow] at hd
  obtain ⟨t, ht, rfl⟩ := List.mem_map.mp hd
  exact ha.proper _ t ht

theorem Valid.apart_blockRow (ha : a.Valid) (hs : a.Separated) (p : Partition) (b : Nat) :
    (a.blockRow p b).Apart := by
  rw [Row.Apart, edges_blockRow]
  exact List.pairwise_map.mpr (ha.apart hs _)

/-- What is explored is the block of some state. -/
theorem Valid.block_of_reaches (ha : a.Valid)
    (h : Reaches (a.blockRow p) [p.blockOf a.initial] b) : ∃ q < a.size, p.blockOf q = b := by
  cases h with
  | start hb => exact ⟨a.initial, ha.initial_lt, (List.mem_singleton.mp hb).symm⟩
  | edge _ hd =>
    rw [edges_blockRow] at hd
    obtain ⟨t, ht, rfl⟩ := List.mem_map.mp hd
    exact ⟨t.target, ha.target_lt _ t ht, rfl⟩

theorem Valid.bounded_blocks (ha : a.Valid) (hp : a.Classifies p) :
    Bounded (a.blockRow p) [p.blockOf a.initial] p.blocks.size := by
  refine bounded_of_lt fun b h => ?_
  obtain ⟨q, hq, rfl⟩ := ha.block_of_reaches h
  exact hp.clean.blockOf_lt q (Nat.lt_succ_of_lt hq)

/-! ## The quotient -/

theorem Valid.arranges_blocks (ha : a.Valid) (hs : a.Separated) (p : Partition)
    (e : Exploration Nat Interval compare) (b : Nat) :
    Arranges Interval.Proper coalesce (e.outgoing (a.blockRow p) b) :=
  arranges_coalesce (ha.proper_blockRow p b) (ha.apart_blockRow hs p b)

theorem Valid.blocks_toJoined (ha : a.Valid) (hs : a.Separated)
    (h : Explored (a.blockRow p) (p.blockOf a.initial) e) : e.toJoined = e.assembled coalesce :=
  h.toJoined_eq (fun b _ => ha.proper_blockRow p b) fun b _ => ha.apart_blockRow hs p b

theorem Valid.residual_blocks (ha : a.Valid) (hs : a.Separated) (hp : a.Classifies p)
    (h : Explored (a.blockRow p) (p.blockOf a.initial) e) (hi : e.items[i]? = some b) :
    e.toJoined.residual i = a.residual (representative p b) := by
  rw [ha.blocks_toJoined hs h]
  refine h.residual_assembled (fun b _ => ha.arranges_blocks hs p e b)
    (fun b => a.residual (representative p b)) (fun b _ => nil_mem_residual) (fun b _ c w => ?_) hi
  rw [cons_mem_residual]
  simp only [leads_blockRow]
  constructor
  · intro ⟨r, hr, hw⟩
    refine ⟨_, ⟨r, hr, rfl⟩, ?_⟩
    rwa [hp.residual_representative (ha.step_lt hr)]
  · intro ⟨_, ⟨r, hr, rfl⟩, hw⟩
    rw [hp.residual_representative (ha.step_lt hr)] at hw
    exact ⟨r, hr, hw⟩

/-- Each state of the quotient accepts what some state of `a` accepts, and states of `a` that accept
the same share theirs. -/
theorem Valid.state_of_block (ha : a.Valid) (hs : a.Separated) (hp : a.Classifies p)
    (h : Explored (a.blockRow p) (p.blockOf a.initial) e) (hi : i < e.toJoined.size) :
    ∃ q < a.size, e.items[i]? = some (p.blockOf q) ∧ e.toJoined.residual i = a.residual q := by
  have hlt : i < e.items.size := by
    rwa [ha.blocks_toJoined hs h, h.size_assembled] at hi
  have hget := Array.getElem?_eq_getElem hlt
  obtain ⟨q, hq, hblock⟩ := ha.block_of_reaches ((h.mem_items _).mp (Array.getElem_mem hlt))
  rw [← hblock] at hget
  exact ⟨q, hq, hget, by rw [ha.residual_blocks hs hp h hget, hp.residual_representative hq]⟩

/-- **The quotient of a trimmed automaton is canonical.** -/
theorem Valid.canonical_blocks (ha : a.Valid) (hs : a.Separated) (ht : a.Trimmed)
    (hp : a.Classifies p) (h : Explored (a.blockRow p) (p.blockOf a.initial) e) :
    e.toJoined.Canonical := by
  have hproper : ∀ b ∈ e.items, (a.blockRow p b).Proper := fun b _ => ha.proper_blockRow p b
  have hapart : ∀ b ∈ e.items, (a.blockRow p b).Apart := fun b _ => ha.apart_blockRow hs p b
  have hjoined := ha.blocks_toJoined hs h
  refine ⟨hjoined ▸ h.valid_assembled fun b _ => ha.arranges_blocks hs p e b, hjoined ▸ rfl,
    fun q => hjoined ▸ (h.apart_joined hproper hapart q).1,
    fun q => hjoined ▸ (h.apart_joined hproper hapart q).2,
    hjoined ▸ h.breadthFirst_joined hproper hapart, fun i hi j hj heq => ?_, .inr fun i hi => ?_⟩
  · obtain ⟨q, hq, hget, hres⟩ := ha.state_of_block hs hp h hi
    obtain ⟨r, hr, hget', hres'⟩ := ha.state_of_block hs hp h hj
    rw [hres, hres'] at heq
    have hblock := (hp.same_iff q (Nat.lt_succ_of_lt hq) r (Nat.lt_succ_of_lt hr)).mpr heq
    exact h.indexed.index_unique hget (hblock ▸ hget')
  · obtain ⟨q, hq, -, hres⟩ := ha.state_of_block hs hp h hi
    obtain ⟨w, hw⟩ := (ht q hq).2
    exact ⟨w, hres.symm ▸ hw⟩

theorem Valid.quotient (ha : a.Valid) (hs : a.Separated) (ht : a.Trimmed) :
    (a.quotient a.refine).Canonical ∧ (a.quotient a.refine).deterministic = true ∧
      (a.quotient a.refine).language = a.language := by
  have hp := ha.classifies_refine hs
  generalize a.refine = p at hp
  have h : Explored (a.blockRow p) (p.blockOf a.initial) (exploreAll compare p.blocks.size
    (a.blockRow p) [p.blockOf a.initial]) := exploreAll_explored (ha.bounded_blocks hp)
  have hcanonical := ha.canonical_blocks hs ht hp h
  obtain ⟨hwell, hinitial⟩ := h.wellFormed_toJoined (fun b _ => ha.proper_blockRow p b)
    fun b _ => ha.apart_blockRow hs p b
  refine ⟨hcanonical, hwell.deterministic_iff.mpr hcanonical.separated, ?_⟩
  rw [Automaton.quotient, Automaton.language, hinitial]
  exact (ha.residual_blocks hs hp h h.head).trans (hp.residual_representative ha.initial_lt)

/-! ## Minimization -/

theorem accepting_isEmpty_trim (ha : a.Valid) :
    a.trim.accepting.isEmpty = true ↔ ¬ a.Live a.initial := by
  rw [List.isEmpty_iff]
  constructor
  · intro hnil ⟨w, hw⟩
    have hmem : w ∈ a.trim.language := ha.trim_language ▸ hw
    obtain ⟨q, -, hq⟩ := hmem
    have := mem_accepting.mpr hq
    rw [hnil] at this
    cases this
  · intro hdead
    obtain ⟨hlive, -⟩ | ⟨-, heq⟩ := ha.trim_cases
    · exact absurd hlive hdead
    · rw [heq]
      rfl

/-- An automaton that is marked minimal is returned as it is; from any other comes the canonical
automaton for its language, with the marks that belong to it. -/
theorem WellFormed.minimizeWith_eq_ok (ha : a.WellFormed) {limits : Limits}
    (h : (a.minimizeWith limits).outcome = .ok m) :
    a.minimal = true ∧ m = a ∨ a.minimal = false ∧ m.Canonical ∧ m.WellFormed ∧
      m.deterministic = true ∧ m.minimal = true ∧ m.language = a.language := by
  unfold minimizeWith at h
  split at h
  · rename_i hmark
    exact .inl ⟨hmark, (Build.outcome_pure_eq_ok.mp h).symm⟩
  rename_i hmark
  refine .inr ⟨Bool.eq_false_iff.mpr hmark, ?_⟩
  obtain ⟨dfa, hdfa, h⟩ := Build.outcome_bind_eq_ok.mp h
  obtain ⟨hwell, hdet, hlanguage⟩ := ha.determinizeWith hdfa
  have hsplit := accepting_isEmpty_trim hwell.toValid
  dsimp only at h
  split at h
  · rename_i hnone
    obtain rfl := Build.outcome_pure_eq_ok.mp h
    refine ⟨canonical_empty, wellFormed_empty, rfl, rfl, ?_⟩
    rw [← hlanguage, not_live_initial_iff.mp (hsplit.mp hnone),
      not_live_initial_iff.mp (not_live_empty _)]
  · rename_i hsome
    obtain rfl := Build.outcome_reported.mp h
    have htrimmed := hwell.toValid.trimmed_trim (not_not.mp fun hdead => hsome (hsplit.mpr hdead))
    obtain ⟨hcanonical, hmark, hquotient⟩ := hwell.toValid.trim_valid.quotient
      (hwell.toValid.trim_separated (hwell.separated hdet)) htrimmed
    rw [hwell.toValid.trim_language, hlanguage] at hquotient
    generalize dfa.trim.quotient dfa.trim.refine = result at hcanonical hquotient hmark
    have hcanonical' : (result.markMinimal.setSingleton a.singleton).Canonical :=
      hcanonical.congr rfl rfl
    have hlanguage' : (result.markMinimal.setSingleton a.singleton).language = a.language := by
      rw [← hquotient]
      exact language_congr rfl rfl
    refine ⟨hcanonical', ⟨hcanonical'.toValid, iff_of_true hmark hcanonical'.separated,
      fun text ht => ?_⟩, hmark, rfl, hlanguage'⟩
    rw [hlanguage']
    exact ha.known text ht

theorem outcome_minimizeWith {limits : Limits} {dfa : Automaton}
    (h : (a.determinizeWith limits).outcome = .ok dfa) :
    ∃ m, (a.minimizeWith limits).outcome = .ok m := by
  unfold minimizeWith
  split
  · exact ⟨a, rfl⟩
  simp only [Build.outcome_bind_eq_ok]
  by_cases hnone : dfa.trim.accepting.isEmpty = true
  · refine ⟨empty, dfa, h, ?_⟩
    rw [if_pos hnone]
    exact Build.outcome_pure _
  · refine ⟨(dfa.trim.quotient dfa.trim.refine).markMinimal.setSingleton a.singleton, dfa, h, ?_⟩
    rw [if_neg hnone]
    exact Build.outcome_bind_eq_ok.mpr ⟨_, Build.outcome_lift _, Build.outcome_pure _⟩

theorem outcome_minimize (a : Automaton) :
    (a.minimizeWith {}).outcome = .ok a.minimize.value := by
  obtain ⟨m, hm⟩ := outcome_minimizeWith (outcome_determinize a)
  rw [minimize, Build.value_getD _ hm, hm]

/-- Every language of an automaton has a canonical automaton. -/
theorem WellFormed.exists_canonical (ha : a.WellFormed) :
    ∃ m : Automaton, m.Canonical ∧ m.language = a.language := by
  have hunmarked : ({ a with minimal := false } : Automaton).WellFormed :=
    ha.congr rfl rfl rfl ha.known
  obtain ⟨hmark, -⟩ | ⟨-, hcanonical, -, -, -, hlanguage⟩ :=
    hunmarked.minimizeWith_eq_ok (outcome_minimize _)
  · cases hmark
  · exact ⟨_, hcanonical, hlanguage.trans (language_congr rfl rfl)⟩

theorem Least.size_eq_one (h : a.Least) (ha : a.Valid) (hlanguage : a.language = 0) :
    a.size = 1 := by
  have hle := h.2 empty valid_empty separated_empty
    ((not_live_initial_iff.mp (not_live_empty _)).trans hlanguage.symm)
  have := ha.initial_lt
  have : empty.size = 1 := rfl
  omega

/-- A least automaton has no two states that accept the same. -/
theorem Least.distinct (h : a.Least) (ha : a.WellFormed) : a.Distinct := by
  obtain ⟨m, hm, hlanguage⟩ := ha.exists_canonical
  have hle := h.2 m hm.toValid hm.separated hlanguage
  rcases hm.live with hbare | hlive
  · refine distinct_of_size_le_one (hle.trans_eq ?_)
    rw [size, hbare]
    rfl
  · obtain ⟨f, hf⟩ := (hm.trimmed hlive).exists_embedding hm.functional ha.toValid
      (ha.toValid.functional h.1) hlanguage.symm
    exact hm.distinct.of_embedding hf hle

/-- **Minimization is correct and optimal.** The result is deterministic and accepts the same words,
and no deterministic automaton that does so has fewer states. -/
theorem WellFormed.minimize_least (ha : a.WellFormed) (hmark : a.minimal = true → a.Least) :
    let m := a.minimize.value
    m.WellFormed ∧ m.deterministic = true ∧ (∀ w, m.runSymbols w = a.runSymbols w) ∧
      (∀ d : Automaton, d.Valid → d.Separated → (∀ w, w ∈ d.language ↔ w ∈ a.language) →
        m.size ≤ d.size) ∧
      ((∀ w, w ∉ a.language) → m.size = 1) ∧
      ∀ p < m.size, ∀ q < m.size, m.residual p = m.residual q → p = q := by
  have hspec : a.minimize.value.WellFormed ∧ a.minimize.value.Least ∧
      a.minimize.value.language = a.language := by
    obtain ⟨hflag, heq⟩ | ⟨-, hcanonical, hwell, -, -, hlanguage⟩ :=
      ha.minimizeWith_eq_ok (outcome_minimize a)
    · rw [heq]
      exact ⟨ha, hmark hflag, rfl⟩
    · exact ⟨hwell, hcanonical.least, hlanguage⟩
  obtain ⟨hwell, hleast, hlanguage⟩ := hspec
  refine ⟨hwell, hwell.deterministic_iff.mpr hleast.1, fun w => ?_, fun d hd hs h => ?_, fun h => ?_,
    hleast.distinct hwell⟩
  · rw [Bool.eq_iff_iff, hwell.runSymbols_iff, ha.runSymbols_iff, hlanguage]
  · exact hleast.2 d hd hs (Language.ext h |>.trans hlanguage.symm)
  · refine hleast.size_eq_one hwell.toValid (hlanguage.trans ?_)
    ext w
    exact iff_of_false (h w) (Language.notMem_zero w)

theorem minimize_branching :
    (branching.WellFormed ∧ ∀ w, branching.minimize.value.runSymbols w = branching.runSymbols w) ∧
      empty.WellFormed ∧ (empty.minimal = true → empty.Least) ∧ empty.minimize.value.size = 1 := by
  have hbranching : branching.WellFormed := wellFormed_ofStates (by decide)
  have hnothing : ∀ w, w ∉ empty.language := fun w hw => not_live_empty _ ⟨w, hw⟩
  exact ⟨⟨hbranching, (hbranching.minimize_least nofun).2.2.1⟩, wellFormed_empty,
    fun _ => canonical_empty.least,
    (wellFormed_empty.minimize_least fun _ => canonical_empty.least).2.2.2.2.1 hnothing⟩

end IntervalAutomata.Automaton
