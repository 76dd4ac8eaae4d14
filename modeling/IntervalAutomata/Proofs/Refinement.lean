import IntervalAutomata.Proofs.Partition
import IntervalAutomata.Proofs.Segments
import IntervalAutomata.Proofs.Sources
import IntervalAutomata.Proofs.Sweep

/-! # Refinement reaches the coarsest stable partition

Two elements of one block that a class leads into different blocks are still going to be separated:
one of the two blocks is pending for that class (`Refining.awaited`). Serving a splitter keeps this,
because a block that is split hands its pending classes on to both parts, and one part is pending for
every other class. Each split adds at most one splitter for each class, so the schedule comes to its
end, and then no class separates a block. Only elements with different futures are ever separated. -/

namespace IntervalAutomata.Refinement

open IntervalAutomata.Partition

variable {classes m : Nat} {r r' : Refinement} {s t : Nat × Nat} {b c f x y : Nat}

/-! ## Scheduling -/

/-- Each splitter has an entry, what is pending is scheduled, and what is scheduled exists. -/
structure Queued (classes : Nat) (r : Refinement) : Prop where
  size_pending : r.pending.size = r.partition.blocks.size * classes
  scheduled : ∀ s : Nat × Nat, s.2 < classes → r.isPending classes s = true →
    s ∈ r.schedule.toList.drop r.next
  exists_of_mem : ∀ s ∈ r.schedule.toList, s.1 < r.partition.blocks.size ∧ s.2 < classes
  next_le : r.next ≤ r.schedule.size

/-- More is pending, and the rest is the same. -/
structure Awaits (classes : Nat) (r r' : Refinement) : Prop where
  partition_eq : r'.partition = r.partition
  next_eq : r'.next = r.next
  mono : ∀ s, r.isPending classes s = true → r'.isPending classes s = true

theorem Awaits.refl (r : Refinement) : Awaits classes r r := ⟨rfl, rfl, fun _ h => h⟩

theorem Awaits.trans {r'' : Refinement} (h : Awaits classes r r') (h' : Awaits classes r' r'') :
    Awaits classes r r'' :=
  ⟨h'.partition_eq.trans h.partition_eq, h'.next_eq.trans h.next_eq,
    fun s hs => h'.mono s (h.mono s hs)⟩

/-- Splitters have entries of their own. -/
theorem entry_inj (hs : s.2 < classes) (ht : t.2 < classes)
    (h : s.1 * classes + s.2 = t.1 * classes + t.2) : s = t := by
  have hpos : 0 < classes := Nat.lt_of_le_of_lt (Nat.zero_le _) hs
  have hdiv := congrArg (· / classes) h
  have hmod := congrArg (· % classes) h
  simp only [Nat.mul_comm _ classes, Nat.mul_add_div hpos, Nat.mul_add_mod, Nat.div_eq_of_lt hs,
    Nat.div_eq_of_lt ht, Nat.mod_eq_of_lt hs, Nat.mod_eq_of_lt ht, Nat.add_zero] at hdiv hmod
  exact Prod.ext hdiv hmod

theorem entry_lt {blocks : Nat} (hs : s.1 < blocks) (hs' : s.2 < classes) :
    s.1 * classes + s.2 < blocks * classes := by
  have : (s.1 + 1) * classes ≤ blocks * classes := Nat.mul_le_mul_right _ hs
  rw [Nat.succ_mul] at this
  omega

/-- Putting a splitter on the schedule, with nothing else changed. -/
def Posts (classes : Nat) (put : Refinement → Nat × Nat → Refinement) : Prop :=
  ∀ r s, Queued classes r → s.1 < r.partition.blocks.size → s.2 < classes →
    Queued classes (put r s) ∧ Awaits classes r (put r s) ∧
      (put r s).isPending classes s = true ∧ (put r s).schedule.size ≤ r.schedule.size + 1

theorem posts_post : Posts classes (post classes) := by
  intro r s h hs hs'
  have hin : s.1 * classes + s.2 < r.pending.size := h.size_pending ▸ entry_lt hs hs'
  have hpending : ∀ t, (r.post classes s).isPending classes t = true ↔
      s.1 * classes + s.2 = t.1 * classes + t.2 ∨ r.isPending classes t = true := by
    intro t
    rw [post, isPending, isPending, getD_setIfInBounds]
    grind
  refine ⟨⟨?_, fun t ht hpt => ?_, fun t ht => ?_, ?_⟩, ⟨rfl, rfl, fun t ht => ?_⟩, ?_, ?_⟩
  · exact Array.size_setIfInBounds.trans h.size_pending
  · rw [post]
    dsimp only
    rw [Array.toList_push, List.drop_append_of_le_length (by simpa using h.next_le), List.mem_append]
    rcases (hpending t).mp hpt with hst | hpt
    · exact .inr (List.mem_singleton.mpr (entry_inj hs' ht hst).symm)
    · exact .inl (h.scheduled t ht hpt)
  · rw [post] at ht ⊢
    rw [Array.toList_push, List.mem_append, List.mem_singleton] at ht
    rcases ht with ht | rfl
    · exact h.exists_of_mem t ht
    · exact ⟨hs, hs'⟩
  · rw [post]
    simpa using Nat.le_succ_of_le h.next_le
  · exact (hpending t).mpr (.inr ht)
  · exact (hpending s).mpr (.inl rfl)
  · rw [post]
    simp

theorem posts_enqueue : Posts classes (enqueue classes) := by
  intro r s h hs hs'
  by_cases hp : r.isPending classes s = true
  · have heq : r.enqueue classes s = r := if_pos hp
    rw [heq]
    exact ⟨h, .refl r, hp, Nat.le_succ _⟩
  · have heq : r.enqueue classes s = r.post classes s := if_neg hp
    rw [heq]
    exact posts_post r s h hs hs'

/-! The table of what is pending grows after a split. -/

theorem isPending_widen (classes : Nat) (r : Refinement) (s : Nat × Nat) :
    (r.widen classes).isPending classes s = r.isPending classes s := by
  rw [widen, isPending, isPending]
  simp only [Array.getD_eq_getD_getElem?, Array.getElem?_append, Array.getElem?_replicate]
  split
  · rfl
  · rename_i hout
    rw [Array.getElem?_eq_none (Nat.le_of_not_lt hout)]
    split <;> rfl

theorem size_widen (h : r.pending.size ≤ r.partition.blocks.size * classes) :
    (r.widen classes).pending.size = r.partition.blocks.size * classes := by
  rw [widen, Array.size_append, Array.size_replicate, Nat.add_sub_cancel' h]

theorem widen_eq (h : r.pending.size = r.partition.blocks.size * classes) : r.widen classes = r := by
  rw [widen, h, Nat.sub_self, Array.replicate_zero, Array.append_empty]

theorem widen_widen (classes : Nat) (r : Refinement) :
    (r.widen classes).widen classes = r.widen classes := by
  have hnone : (r.widen classes).partition.blocks.size * classes -
      (r.widen classes).pending.size = 0 := by
    simp only [widen, Array.size_append, Array.size_replicate]
    omega
  rw [widen, hnone, Array.replicate_zero, Array.append_empty]

theorem enqueueSplit_widen (classes : Nat) (r : Refinement) (s : Nat × Nat) :
    (r.widen classes).enqueueSplit classes s = r.enqueueSplit classes s := by
  rw [Refinement.enqueueSplit, Refinement.enqueueSplit, widen_widen]

/-- The part of a split block that serves as splitter for a class. -/
def chosen (classes : Nat) (split : Nat × Nat) (r : Refinement) (c : Nat) : Nat :=
  if r.isPending classes (split.1, c) then split.2
  else if r.partition.size split.2 ≤ r.partition.size split.1 then split.2 else split.1

theorem chosen_cases (classes : Nat) (r : Refinement) (split : Nat × Nat) (c : Nat) :
    chosen classes split r c = split.2 ∨
      chosen classes split r c = split.1 ∧ ¬ r.isPending classes (split.1, c) = true := by
  unfold chosen
  split
  · exact .inl rfl
  · split
    · exact .inl rfl
    · exact .inr ⟨rfl, ‹_›⟩

/-- The two parts of a split block between them await class `c`, and the new part awaits what the
block awaited before. -/
def Shares (classes : Nat) (r r' : Refinement) (split : Nat × Nat) (c : Nat) : Prop :=
  (r.isPending classes (split.1, c) = true → r'.isPending classes (split.2, c) = true) ∧
    (r'.isPending classes (split.1, c) = true ∨ r'.isPending classes (split.2, c) = true)

theorem Shares.mono {r₀ r₁ : Refinement} (h : Shares classes r₀ r₁ s c) (ha : Awaits classes r r₀)
    (ha' : Awaits classes r₁ r') : Shares classes r r' s c :=
  ⟨fun hp => ha'.mono _ (h.1 (ha.mono _ hp)), h.2.imp (ha'.mono _) (ha'.mono _)⟩

/-- Putting on the schedule, for each class, a block that may depend on what has been put there before. -/
theorem Queued.putEach {put : Refinement → Nat × Nat → Refinement} (hput : Posts classes put)
    (h : Queued classes r) (pick : Refinement → Nat → Nat)
    (hpick : ∀ r', r'.partition = r.partition → ∀ c, pick r' c < r.partition.blocks.size)
    (cs : List Nat) (hcs : ∀ c ∈ cs, c < classes) :
    let r' := cs.foldl (fun r c => put r (pick r c, c)) r
    Queued classes r' ∧ Awaits classes r r' ∧ r'.schedule.size ≤ r.schedule.size + cs.length ∧
      ∀ c ∈ cs, ∃ r₀, Awaits classes r r₀ ∧ r'.isPending classes (pick r₀ c, c) = true := by
  induction cs generalizing r with
  | nil => exact ⟨h, .refl r, Nat.le_refl _, fun c hc => nomatch hc⟩
  | cons c cs ih =>
    obtain ⟨hq, ha, hpend, hsize⟩ := hput r (pick r c, c) h (hpick r rfl c) (hcs c (by simp))
    obtain ⟨hq', ha', hsize', hall⟩ := ih hq
      (fun r' heq => ha.partition_eq ▸ hpick r' (heq.trans ha.partition_eq))
      (fun d hd => hcs d (by simp [hd]))
    rw [List.foldl_cons]
    refine ⟨hq', ha.trans ha', by rw [List.length_cons]; omega, fun d hd => ?_⟩
    rcases List.mem_cons.mp hd with rfl | hd
    · exact ⟨r, .refl r, ha'.mono _ hpend⟩
    · obtain ⟨r₀, ha₀, hpend₀⟩ := hall d hd
      exact ⟨r₀, ha.trans ha₀, hpend₀⟩

theorem Queued.enqueueSplit (h : Queued classes r) (hs : s.1 < r.partition.blocks.size)
    (hs' : s.2 < r.partition.blocks.size) :
    Queued classes (r.enqueueSplit classes s) ∧ Awaits classes r (r.enqueueSplit classes s) ∧
      (r.enqueueSplit classes s).schedule.size ≤ r.schedule.size + classes ∧
      ∀ c < classes, Shares classes r (r.enqueueSplit classes s) s c := by
  have hpick : ∀ (r' : Refinement) c, chosen classes s r' c < r.partition.blocks.size := by
    intro r' c
    rcases chosen_cases classes r' s c with heq | ⟨heq, -⟩ <;> rw [heq] <;> assumption
  obtain ⟨hq, ha, hsize, hall⟩ := h.putEach posts_enqueue (chosen classes s) (fun r' _ c => hpick r' c)
    (List.range classes) fun c hc => List.mem_range.mp hc
  have heq : r.enqueueSplit classes s = (List.range classes).foldl
      (fun r c => r.enqueue classes (chosen classes s r c, c)) r :=
    congrArg (List.foldl _ · (List.range classes)) (widen_eq h.size_pending)
  rw [List.length_range] at hsize
  rw [heq]
  refine ⟨hq, ha, hsize, fun c hc => ?_⟩
  obtain ⟨r₀, ha₀, hpend⟩ := hall c (List.mem_range.mpr hc)
  rcases chosen_cases classes r₀ s c with heq | ⟨heq, hnot⟩ <;> rw [heq] at hpend
  · exact ⟨fun _ => hpend, .inr hpend⟩
  · exact ⟨fun hp => absurd (ha₀.mono _ hp) hnot, .inl hpend⟩

theorem Queued.enqueueSplits (h : Queued classes r) (splits : List (Nat × Nat))
    (hs : ∀ s ∈ splits, s.1 < r.partition.blocks.size ∧ s.2 < r.partition.blocks.size) :
    let r' := splits.foldl (Refinement.enqueueSplit classes) r
    Queued classes r' ∧ Awaits classes r r' ∧
      r'.schedule.size ≤ r.schedule.size + classes * splits.length ∧
      ∀ s ∈ splits, ∀ c < classes, Shares classes r r' s c := by
  induction splits generalizing r with
  | nil => exact ⟨h, .refl r, Nat.le_refl _, fun s hs => nomatch hs⟩
  | cons s splits ih =>
    obtain ⟨hfst, hsnd⟩ := hs s (by simp)
    obtain ⟨hq, ha, hsize, hall⟩ := h.enqueueSplit hfst hsnd
    obtain ⟨hq', ha', hsize', hall'⟩ := ih hq (fun t ht => ha.partition_eq ▸ hs t (by simp [ht]))
    rw [List.foldl_cons]
    refine ⟨hq', ha.trans ha', ?_, fun t ht c hc => ?_⟩
    · rw [List.length_cons, Nat.mul_succ]
      omega
    · rcases List.mem_cons.mp ht with rfl | ht
      · exact (hall c hc).mono (.refl r) ha'
      · exact (hall' t ht c hc).mono ha (.refl _)

/-! ## Serving -/

/-- The table says which elements a class leads where. -/
structure Leading (m : Nat) (sources : Sources) (lead : Nat → Nat → Nat) : Prop where
  lt : ∀ c < sources.classes, ∀ x < m, lead c x < m
  mem_iff : ∀ c < sources.classes, ∀ t < m, ∀ x, x ∈ sources.into t c ↔ x < m ∧ lead c x = t

structure Refining (classes m : Nat) (lead : Nat → Nat → Nat) (r : Refinement) : Prop
    extends Queued classes r where
  clean : r.partition.Clean m
  awaited : ∀ x < m, ∀ y < m, r.partition.blockOf x = r.partition.blockOf y → ∀ c < classes,
    r.partition.blockOf (lead c x) = r.partition.blockOf (lead c y) ∨
      r.isPending classes (r.partition.blockOf (lead c x), c) = true ∨
      r.isPending classes (r.partition.blockOf (lead c y), c) = true
  size_schedule : r.schedule.size + classes ≤ classes * r.partition.blocks.size

section

variable {sources : Sources} {lead : Nat → Nat → Nat}

/-- The elements that class `s.2` leads into block `s.1`. -/
def leading (sources : Sources) (r : Refinement) (s : Nat × Nat) : List Nat :=
  (r.partition.members s.1).flatMap (sources.into · s.2)

/-- A refinement whose splitter has been taken and whose blocks have been split. -/
def split (sources : Sources) (r : Refinement) (s : Nat × Nat) : Refinement :=
  { r with
    partition := (r.partition.markAll (leading sources r s)).split.2
    next := r.next + 1
    pending := r.pending.setIfInBounds (s.1 * sources.classes + s.2) false }

/-- The same with room for the new blocks, before the parts are scheduled. -/
def taken (sources : Sources) (r : Refinement) (s : Nat × Nat) : Refinement :=
  (split sources r s).widen sources.classes

/-- The table has grown when the first of the new blocks is scheduled. -/
theorem serve_eq (hpending : r.pending.size = r.partition.blocks.size * sources.classes)
    (hsize : (split sources r s).partition.blocks.size =
      r.partition.blocks.size + (r.partition.markAll (leading sources r s)).split.1.length) :
    r.serve sources s = (r.partition.markAll (leading sources r s)).split.1.foldl
      (enqueueSplit sources.classes) (taken sources r s) := by
  have hserve : r.serve sources s = (r.partition.markAll (leading sources r s)).split.1.foldl
    (enqueueSplit sources.classes) (split sources r s) := rfl
  rw [hserve, taken]
  generalize (r.partition.markAll (leading sources r s)).split.1 = splits at hsize
  cases splits with
  | nil =>
    rw [List.foldl_nil, List.foldl_nil, widen_eq]
    rw [hsize, List.length_nil, Nat.add_zero, ← hpending]
    exact Array.size_setIfInBounds
  | cons t splits => rw [List.foldl_cons, List.foldl_cons, enqueueSplit_widen]

theorem Leading.mem_leading (hl : Leading m sources lead) (hp : r.partition.Sound m)
    (hs : s.1 < r.partition.blocks.size) (hs' : s.2 < sources.classes) :
    x ∈ leading sources r s ↔ x < m ∧ r.partition.blockOf (lead s.2 x) = s.1 := by
  rw [leading, List.mem_flatMap]
  constructor
  · intro ⟨t, hmem, hsource⟩
    obtain ⟨ht, hts⟩ := (hp.mem_members hs).mp hmem
    obtain ⟨hx, rfl⟩ := (hl.mem_iff _ hs' t ht x).mp hsource
    exact ⟨hx, hts⟩
  · intro ⟨hx, hxs⟩
    have ht := hl.lt _ hs' x hx
    exact ⟨_, (hp.mem_members hs).mpr ⟨ht, hxs⟩, (hl.mem_iff _ hs' _ ht x).mpr ⟨hx, rfl⟩⟩

theorem isPending_taken (hq : Queued sources.classes r) (hs : s.1 < r.partition.blocks.size)
    (hs' : s.2 < sources.classes) (ht : t.2 < sources.classes) :
    (taken sources r s).isPending sources.classes t = true ↔
      r.isPending sources.classes t = true ∧ t ≠ s := by
  have hin : s.1 * sources.classes + s.2 < r.pending.size := hq.size_pending ▸ entry_lt hs hs'
  have hinj := entry_inj hs' ht
  rw [taken, isPending_widen, Refinement.split, isPending, isPending, getD_setIfInBounds]
  grind

theorem Queued.taken (hq : Queued sources.classes r) (hnext : r.schedule[r.next]? = some s)
    (hs : s.1 < r.partition.blocks.size) (hs' : s.2 < sources.classes)
    (hgrows : r.partition.blocks.size ≤ (Refinement.split sources r s).partition.blocks.size) :
    Queued sources.classes (taken sources r s) where
  size_pending := by
    refine size_widen ?_
    rw [Refinement.split, Array.size_setIfInBounds, hq.size_pending]
    exact Nat.mul_le_mul_right _ hgrows
  scheduled t ht hp := by
    obtain ⟨hp, hne⟩ := (isPending_taken hq hs hs' ht).mp hp
    have hmem := hq.scheduled t ht hp
    rw [List.drop_eq_getElem?_toList_append, Array.getElem?_toList, hnext] at hmem
    exact (List.mem_cons.mp hmem).resolve_left hne
  exists_of_mem t ht := by
    obtain ⟨ht, ht'⟩ := hq.exists_of_mem t ht
    exact ⟨Nat.lt_of_lt_of_le ht hgrows, ht'⟩
  next_le := (Array.getElem?_eq_some_iff.mp hnext).1

/-- The two parts of a block that was split between them await every class. -/
theorem awaits_of_splits {inside : Nat → Prop} {p q : Partition} {splits : List (Nat × Nat)}
    (hsplits : Splits m inside p q splits) (hx : x < m) (hy : y < m)
    (hshares : ∀ t ∈ splits, Shares classes r r' t c) (hold : p.blockOf x = p.blockOf y) :
    q.blockOf x = q.blockOf y ∨ r'.isPending classes (q.blockOf x, c) = true ∨
      r'.isPending classes (q.blockOf y, c) = true := by
  rcases hsplits.cases hx with hx' | ⟨-, hx'⟩
  · rcases hsplits.cases hy with hy' | ⟨-, hy'⟩
    · exact .inl (hx'.trans (hold.trans hy'.symm))
    · have := (hshares _ hy').2
      rw [← hold, ← hx'] at this
      exact .inr this
  · rcases hsplits.cases hy with hy' | ⟨hin, hy'⟩
    · have := (hshares _ hx').2
      rw [hold, ← hy'] at this
      exact .inr this.symm
    · exact .inl ((hsplits.moved _ hx' y hy).mpr ⟨hold.symm, hin⟩).symm

/-- What a block awaits is awaited by the part of each of its elements. -/
theorem hands_of_splits {inside : Nat → Prop} {p q : Partition} {splits : List (Nat × Nat)}
    (hsplits : Splits m inside p q splits) (hx : x < m) (ha : Awaits classes r r')
    (hshares : ∀ t ∈ splits, Shares classes r r' t c)
    (hp : r.isPending classes (p.blockOf x, c) = true) :
    r'.isPending classes (q.blockOf x, c) = true := by
  rcases hsplits.cases hx with hx' | ⟨-, hx'⟩
  · exact hx'.symm ▸ ha.mono _ hp
  · exact (hshares _ hx').1 hp

theorem Refining.serve (hl : Leading m sources lead) (h : Refining sources.classes m lead r)
    (hnext : r.schedule[r.next]? = some s) :
    Refining sources.classes m lead (r.serve sources s) ∧ (r.serve sources s).next = r.next + 1 ∧
      ∀ x < m, ∀ y < m, (r.serve sources s).partition.blockOf x =
          (r.serve sources s).partition.blockOf y ↔
        r.partition.blockOf x = r.partition.blockOf y ∧
          (r.partition.blockOf (lead s.2 x) = s.1 ↔ r.partition.blockOf (lead s.2 y) = s.1) := by
  obtain ⟨hs, hs'⟩ := h.exists_of_mem s
    (Array.mem_toList_iff.mpr (Array.mem_iff_getElem?.mpr ⟨_, hnext⟩))
  have hlt := h.clean.blockOf_lt
  have hleading : ∀ x < m, x ∈ leading sources r s ↔ r.partition.blockOf (lead s.2 x) = s.1 :=
    fun x hx => by rw [hl.mem_leading h.clean.toSound hs hs', and_iff_right hx]
  obtain ⟨hclean, hsplits⟩ := h.clean.round fun x (hx : x ∈ leading sources r s) =>
    ((hl.mem_leading h.clean.toSound hs hs').mp hx).1
  have hsame := fun x hx y hy => hsplits.same_iff hlt (x := x) (y := y) hx hy
  have hgrows : r.partition.blocks.size ≤
      (r.partition.markAll (leading sources r s)).split.2.blocks.size := by
    rw [hsplits.size_eq]
    exact Nat.le_add_right _ _
  obtain ⟨hqueued, hawaits, hsize, hshares⟩ :=
    (h.toQueued.taken hnext hs hs' hgrows).enqueueSplits
      (r.partition.markAll (leading sources r s)).split.1
      fun t ht => ⟨Nat.lt_of_lt_of_le (hsplits.fresh t ht).1 hgrows, (hsplits.fresh t ht).2.2⟩
  rw [← serve_eq h.size_pending hsplits.size_eq] at hqueued hawaits hsize hshares
  have hpartition : (r.serve sources s).partition =
    (r.partition.markAll (leading sources r s)).split.2 := hawaits.partition_eq
  refine ⟨⟨hqueued, hpartition ▸ hclean, ?_, ?_⟩, hawaits.next_eq, ?_⟩
  · rw [hpartition]
    intro x hx y hy hxy c hc
    have hu := hl.lt c hc x hx
    have hv := hl.lt c hc y hy
    obtain ⟨hold, hiff⟩ := (hsame x hx y hy).mp hxy
    rw [hleading x hx, hleading y hy] at hiff
    have hshares' : ∀ t ∈ _, Shares sources.classes _ _ t c := fun t ht => hshares t ht c hc
    by_cases htargets : r.partition.blockOf (lead c x) = r.partition.blockOf (lead c y)
    · exact awaits_of_splits hsplits hu hv hshares' htargets
    have hkeep : ∀ b, r.isPending sources.classes (b, c) = true → (b, c) ≠ s →
        (taken sources r s).isPending sources.classes (b, c) = true := fun b hp hne =>
      (isPending_taken h.toQueued hs hs' hc).mpr ⟨hp, hne⟩
    -- the splitter itself leads `x` and `y` to the same side
    rcases h.awaited x hx y hy hold c hc with heq | hp | hp
    · exact absurd heq htargets
    · refine .inr (.inl (hands_of_splits hsplits hu hawaits hshares' (hkeep _ hp ?_)))
      rintro rfl
      exact htargets (hiff.mp rfl).symm
    · refine .inr (.inr (hands_of_splits hsplits hv hawaits hshares' (hkeep _ hp ?_)))
      rintro rfl
      exact htargets (hiff.mpr rfl)
  · rw [hpartition, hsplits.size_eq, Nat.mul_add]
    have := h.size_schedule
    have hschedule : (taken sources r s).schedule = r.schedule := rfl
    rw [hschedule] at hsize
    omega
  · rw [hpartition]
    intro x hx y hy
    rw [hsame x hx y hy, hleading x hx, hleading y hy]

/-! ## Running -/

/-- `q` separates no more than it has to in order to be stable and at least as fine as `p`. -/
structure Coarsest (classes m : Nat) (lead : Nat → Nat → Nat) (p q : Partition) : Prop where
  finer : ∀ x < m, ∀ y < m, q.blockOf x = q.blockOf y → p.blockOf x = p.blockOf y
  stable : ∀ x < m, ∀ y < m, q.blockOf x = q.blockOf y → ∀ c < classes,
    q.blockOf (lead c x) = q.blockOf (lead c y)
  coarsest : ∀ same : Nat → Nat → Prop,
    (∀ x < m, ∀ y < m, same x y → ∀ c < classes, same (lead c x) (lead c y)) →
    (∀ x < m, ∀ y < m, same x y → p.blockOf x = p.blockOf y) →
    ∀ x < m, ∀ y < m, same x y → q.blockOf x = q.blockOf y

/-- **A run reaches the coarsest stable refinement.** -/
theorem Refining.run (hl : Leading m sources lead) (fuel : Nat)
    (h : Refining sources.classes m lead r) (hfuel : sources.classes * (m + 1) < fuel + r.next) :
    (run sources fuel r).partition.Clean m ∧
      Coarsest sources.classes m lead r.partition (run sources fuel r).partition := by
  induction fuel generalizing r with
  | zero =>
    have := h.next_le
    have := h.size_schedule
    have hblocks : r.partition.blocks.size ≤ m + 1 := Nat.le_succ_of_le h.clean.blocks_le
    have := Nat.mul_le_mul_left sources.classes hblocks
    omega
  | succ fuel ih =>
    unfold Refinement.run
    split
    · rename_i s hnext
      obtain ⟨hserved, hn, hsame⟩ := h.serve hl hnext
      obtain ⟨hclean, hcoarsest⟩ := ih hserved (by omega)
      obtain ⟨-, hs'⟩ := h.exists_of_mem s
        (Array.mem_toList_iff.mpr (Array.mem_iff_getElem?.mpr ⟨_, hnext⟩))
      refine ⟨hclean, fun x hx y hy hxy => ?_, hcoarsest.stable, fun same hlead hstart => ?_⟩
      · exact ((hsame x hx y hy).mp (hcoarsest.finer x hx y hy hxy)).1
      · refine hcoarsest.coarsest same hlead fun x hx y hy hxy => ?_
        rw [hsame x hx y hy]
        refine ⟨hstart x hx y hy hxy, ?_⟩
        rw [hstart _ (hl.lt _ hs' x hx) _ (hl.lt _ hs' y hy) (hlead x hx y hy hxy _ hs')]
    · rename_i hnext
      refine ⟨h.clean, fun x _ y _ hxy => hxy, fun x hx y hy hxy c hc => ?_,
        fun same _ hstart x hx y hy hxy => hstart x hx y hy hxy⟩
      have hidle : ∀ b, r.isPending sources.classes (b, c) ≠ true := by
        intro b hp
        have hmem := h.scheduled (b, c) hc hp
        rw [List.drop_eq_nil_of_le] at hmem
        · cases hmem
        · rw [Array.length_toList]
          exact Array.getElem?_eq_none_iff.mp hnext
      exact (h.awaited x hx y hy hxy c hc).resolve_right
        (not_or.mpr ⟨hidle _, hidle _⟩)

/-! ## Starting -/

/-- The partition into accepting states and all others. -/
def halves (a : Automaton) : Partition :=
  ((whole (a.size + 1)).markAll a.accepting).split.2

theorem halves_spec (a : Automaton) : (halves a).Clean (a.size + 1) ∧
    ((halves a).blocks.size = 1 ∨ (halves a).blocks.size = 2) ∧
    ∀ x < a.size + 1, ∀ y < a.size + 1,
      (halves a).blockOf x = (halves a).blockOf y ↔ a.isAccepting x = a.isAccepting y := by
  have hwhole : (whole (a.size + 1)).Clean (a.size + 1) := clean_whole (Nat.succ_pos _)
  have hone : (whole (a.size + 1)).blocks.size = 1 := by simp [whole]
  have hlt := hwhole.blockOf_lt
  obtain ⟨hclean, hsplits⟩ := hwhole.round fun x (hx : x ∈ a.accepting) => by
    have := Automaton.lt_of_isAccepting (Automaton.mem_accepting.mp hx)
    omega
  refine ⟨hclean, ?_, fun x hx y hy => ?_⟩
  · have hsize := hsplits.size_eq
    have hle : ((whole (a.size + 1)).markAll a.accepting).split.1.length ≤ 1 := by
      have hzero : ((whole (a.size + 1)).markAll a.accepting).split.1.map (·.1) ⊆ [0] := by
        intro b hb
        obtain ⟨s, hs, rfl⟩ := List.mem_map.mp hb
        have := (hsplits.fresh s hs).1
        exact List.mem_singleton.mpr (by omega)
      simpa using hsplits.nodup.length_le_of_subset hzero
    rw [halves, hsize, hone]
    omega
  · have hx' := hlt x hx
    have hy' := hlt y hy
    rw [halves, hsplits.same_iff hlt hx hy, Automaton.mem_accepting, Automaton.mem_accepting,
      ← Bool.eq_iff_iff]
    exact and_iff_right (by omega)

/-- The refinement before anything is scheduled. -/
def idle (classes : Nat) (a : Automaton) : Refinement :=
  ⟨halves a, #[], 0, Array.replicate ((halves a).blocks.size * classes) false⟩

theorem start_eq (classes : Nat) (a : Automaton) : start classes a =
    if (halves a).blocks.size = 2 then
      (List.range classes).foldl (fun r c => r.post classes
        (if (halves a).size 0 ≤ (halves a).size 1 then 0 else 1, c)) (idle classes a)
    else idle classes a := rfl

theorem queued_idle (classes : Nat) (a : Automaton) : Queued classes (idle classes a) where
  size_pending := Array.size_replicate
  scheduled s _ hs := by
    rw [isPending, idle, getD_replicate] at hs
    cases hs
  exists_of_mem _ hs := nomatch hs
  next_le := Nat.le_refl _

theorem refining_start {lead : Nat → Nat → Nat} (a : Automaton)
    (hlead : ∀ c < classes, ∀ x < a.size + 1, lead c x < a.size + 1) :
    Refining classes (a.size + 1) lead (start classes a) ∧ (start classes a).next = 0 ∧
      (start classes a).partition = halves a := by
  obtain ⟨hclean, hsize, -⟩ := halves_spec a
  rw [start_eq]
  by_cases htwo : (halves a).blocks.size = 2
  · rw [if_pos htwo]
    generalize hsmaller : (if (halves a).size 0 ≤ (halves a).size 1 then 0 else 1) = smaller
    have hlt : smaller < 2 := by grind
    have hfold := (queued_idle classes a).putEach posts_post (fun _ _ => smaller)
      (fun _ _ _ => Nat.lt_of_lt_of_eq hlt htwo.symm) (List.range classes)
      fun c hc => List.mem_range.mp hc
    dsimp only at hfold
    generalize (List.range classes).foldl (fun r c => r.post classes (smaller, c))
      (idle classes a) = r at hfold ⊢
    obtain ⟨hq, ha, hschedule, hall⟩ := hfold
    have hpartition : r.partition = halves a := ha.partition_eq
    refine ⟨⟨hq, hpartition ▸ hclean, fun x hx y hy _ c hc => ?_, ?_⟩, ha.next_eq, hpartition⟩
    · -- of two blocks one is the smaller one
      rw [hpartition]
      have hu : (halves a).blockOf (lead c x) < 2 := htwo ▸ hclean.blockOf_lt _ (hlead c hc x hx)
      have hv : (halves a).blockOf (lead c y) < 2 := htwo ▸ hclean.blockOf_lt _ (hlead c hc y hy)
      obtain ⟨_, -, hpend⟩ := hall c (List.mem_range.mpr hc)
      by_cases hx' : (halves a).blockOf (lead c x) = smaller
      · exact .inr (.inl (by rw [hx']; exact hpend))
      by_cases hy' : (halves a).blockOf (lead c y) = smaller
      · exact .inr (.inr (by rw [hy']; exact hpend))
      exact .inl (by omega)
    · have hidle : (idle classes a).schedule.size = 0 := rfl
      rw [List.length_range] at hschedule
      rw [hpartition, htwo]
      omega
  · rw [if_neg htwo]
    refine ⟨⟨queued_idle classes a, hclean, fun x hx y hy hxy c hc => ?_, ?_⟩, rfl, rfl⟩
    · have := hclean.blockOf_lt _ (hlead c hc x hx)
      have := hclean.blockOf_lt _ (hlead c hc y hy)
      exact .inl (show (halves a).blockOf _ = (halves a).blockOf _ by omega)
    · show 0 + classes ≤ classes * (halves a).blocks.size
      rw [hsize.resolve_right htwo]
      omega

end

end IntervalAutomata.Refinement

namespace IntervalAutomata.Automaton

open Refinement

variable {a : Automaton} {p q c x y : Nat} {w : List Nat}

/-! ## Symbol classes -/

theorem mem_symbolClasses {cut : Interval} : cut ∈ a.symbolClasses ↔
    cut ∈ segments (boundaries (a.states.toList.flatMap fun s => s.transitions.map (·.interval))) ∧
      ∃ q < a.size, (a.step q cut.min).isSome := by
  simp only [symbolClasses, List.mem_filter, List.any_eq_true, List.mem_range]

theorem interval_mem_of_step {t : Transition} (ht : t ∈ a.transitions p) :
    t.interval ∈ a.states.toList.flatMap fun s => s.transitions.map (·.interval) := by
  rcases Nat.lt_or_ge p a.size with hp | hp
  · refine List.mem_flatMap.mpr ⟨a.state p, ?_, List.mem_map_of_mem ht⟩
    rw [← getElem_states hp]
    exact Array.mem_toList_iff.mpr (Array.getElem_mem hp)
  · rw [transitions, state_of_size_le hp] at ht
    cases ht

/-- Within a class a state moves on every symbol alike. -/
theorem step_iff_of_contains {cut : Interval} (hcut : cut ∈ a.symbolClasses)
    (hc : cut.contains c = true) : a.Step p c q ↔ a.Step p cut.min q := by
  refine exists_congr fun t => and_congr_right fun ht => and_congr_left' ?_
  exact contains_iff_contains_min (mem_symbolClasses.mp hcut).1 (interval_mem_of_step ht) hc

/-- A symbol on which some state moves is in a class. -/
theorem Valid.exists_class (ha : a.Valid) (hs : a.Separated) (h : a.Step p c q) :
    ∃ cut ∈ a.symbolClasses, cut.contains c = true := by
  obtain ⟨t, ht, hc, rfl⟩ := h
  obtain ⟨cut, hcut, hcontains⟩ := exists_segment_of_contains (interval_mem_of_step ht) hc
  have hmin : t.interval.contains cut.min = true :=
    (contains_iff_contains_min hcut (interval_mem_of_step ht) hcontains).mp hc
  have hstep : a.Step p cut.min t.target := ⟨t, ht, hmin, rfl⟩
  refine ⟨cut, mem_symbolClasses.mpr ⟨hcut, p, hstep.source_lt, ?_⟩, hcontains⟩
  rw [(ha.step_eq_some_iff hs).mpr hstep]
  rfl

/-! ## Leading states -/

/-- Where class `c` leads a state or the sink behind the states. -/
def lead (a : Automaton) (c x : Nat) : Nat := a.leadOn (a.symbolClasses.getD c default).min x

theorem Valid.lead_lt (ha : a.Valid) (hs : a.Separated) (c x : Nat) :
    a.lead c x < a.size + 1 := by
  unfold lead leadOn
  cases h : a.step x (a.symbolClasses.getD c default).min with
  | none => exact Nat.lt_succ_self _
  | some q => exact Nat.lt_succ_of_lt (ha.step_lt ((ha.step_eq_some_iff hs).mp h))

theorem leading_classSources (ha : a.Valid) (hs : a.Separated) :
    Leading (a.size + 1) a.classSources a.lead where
  lt c _ x _ := ha.lead_lt hs c x
  mem_iff c hc t ht x := by
    rw [mem_into_classSources hc ht, lead, List.getD_eq_getElem?_getD, List.getElem?_eq_getElem hc,
      Option.getD_some]

/-! ## Blocks and residuals -/

theorem residual_sink (a : Automaton) : a.residual a.size = 0 := by
  ext w
  exact iff_of_false (fun hw => Nat.lt_irrefl _ (Live.lt ⟨w, hw⟩)) (Language.notMem_zero w)

/-- What a state accepts behind a symbol, the sink accepts nothing behind any. -/
theorem Valid.mem_residual_lead (ha : a.Valid) (hs : a.Separated) :
    w ∈ a.residual (a.lead c x) ↔ (a.symbolClasses.getD c default).min :: w ∈ a.residual x := by
  rw [lead, leadOn, cons_mem_residual]
  simp only [← ha.step_eq_some_iff hs]
  cases a.step x (a.symbolClasses.getD c default).min with
  | none =>
    rw [Option.getD_none, residual_sink]
    exact iff_of_false (Language.notMem_zero w) (by simp)
  | some q => simp

/-- Elements that no class separates accept the same. -/
theorem Valid.residual_eq_of_stable (ha : a.Valid) (hs : a.Separated) {block : Nat → Nat}
    (haccept : ∀ x < a.size + 1, ∀ y < a.size + 1, block x = block y →
      a.isAccepting x = a.isAccepting y)
    (hstable : ∀ x < a.size + 1, ∀ y < a.size + 1, block x = block y →
      ∀ c < a.symbolClasses.length, block (a.lead c x) = block (a.lead c y))
    (hx : x < a.size + 1) (hy : y < a.size + 1) (h : block x = block y) :
    a.residual x = a.residual y := by
  suffices hone : ∀ (w : List Nat) x y, x < a.size + 1 → y < a.size + 1 → block x = block y →
      w ∈ a.residual x → w ∈ a.residual y by
    ext w
    exact ⟨hone w x y hx hy h, hone w y x hy hx h.symm⟩
  intro w
  induction w with
  | nil =>
    intro x y hx hy h hw
    rw [nil_mem_residual] at hw ⊢
    rw [← haccept x hx y hy h, hw]
  | cons d w ih =>
    intro x y hx hy h hw
    obtain ⟨q, hstep, hq⟩ := cons_mem_residual.mp hw
    obtain ⟨cut, hcut, hd⟩ := ha.exists_class hs hstep
    obtain ⟨c, hc, rfl⟩ := List.mem_iff_getElem.mp hcut
    have hget : a.symbolClasses.getD c default = a.symbolClasses[c] := by
      simp [List.getD_eq_getElem?_getD, hc]
    have hlead : w ∈ a.residual (a.lead c x) := by
      rw [ha.mem_residual_lead hs, hget, cons_mem_residual]
      exact ⟨q, (step_iff_of_contains hcut hd).mp hstep, hq⟩
    have hlead' := ih _ _ (ha.lead_lt hs c x) (ha.lead_lt hs c y) (hstable x hx y hy h c hc) hlead
    rw [ha.mem_residual_lead hs, hget, cons_mem_residual] at hlead'
    obtain ⟨r, hstep', hr⟩ := hlead'
    exact cons_mem_residual.mpr ⟨r, (step_iff_of_contains hcut hd).mpr hstep', hr⟩

theorem refine_eq (a : Automaton) : a.refine =
    (Refinement.run a.classSources (a.classSources.classes * (a.size + 2) + 1)
      (Refinement.start a.classSources.classes a)).partition := rfl

theorem Valid.coarsest_refine (ha : a.Valid) (hs : a.Separated) :
    a.refine.Clean (a.size + 1) ∧
      Coarsest a.symbolClasses.length (a.size + 1) a.lead (halves a) a.refine := by
  have hl : Leading (a.size + 1) a.classSources a.lead := leading_classSources ha hs
  have hclasses : a.classSources.classes = a.symbolClasses.length := rfl
  rw [refine_eq, ← hclasses]
  generalize a.classSources = sources at hl
  obtain ⟨hstart, hnext, hhalves⟩ := refining_start a hl.lt
  rw [← hhalves]
  exact hstart.run hl _ (by rw [hnext]; exact Nat.lt_succ_self _)

/-- The blocks are the residuals of the states and the sink. -/
structure Classifies (a : Automaton) (p : Partition) : Prop where
  clean : p.Clean (a.size + 1)
  same_iff : ∀ x < a.size + 1, ∀ y < a.size + 1,
    p.blockOf x = p.blockOf y ↔ a.residual x = a.residual y

/-- **Refinement finds the elements that accept the same.** -/
theorem Valid.classifies_refine (ha : a.Valid) (hs : a.Separated) : a.Classifies a.refine := by
  obtain ⟨hclean, hcoarsest⟩ := ha.coarsest_refine hs
  obtain ⟨-, -, hhalves⟩ := halves_spec a
  refine ⟨hclean, fun x hx y hy => ⟨fun h => ?_, fun h => ?_⟩⟩
  · refine ha.residual_eq_of_stable hs (fun x hx y hy h => ?_) hcoarsest.stable hx hy h
    exact (hhalves x hx y hy).mp (hcoarsest.finer x hx y hy h)
  · refine hcoarsest.coarsest (fun x y => a.residual x = a.residual y) ?_ ?_ x hx y hy h
    · intro x _ y _ h c _
      ext w
      rw [ha.mem_residual_lead hs, ha.mem_residual_lead hs, h]
    · intro x hx y hy h
      rw [hhalves x hx y hy, Bool.eq_iff_iff, ← nil_mem_residual, ← nil_mem_residual, h]

end IntervalAutomata.Automaton
