import IntervalAutomata.Proofs.Partition
import Mathlib.Data.List.Perm.Lattice
import Mathlib.Logic.ExistsUnique

/-! # Rounds of marking and splitting

What a round leaves is the partition before it, cut once more along the marked elements, and what was
cut is listed. So after any rounds the blocks hold together the elements that every round so far has
marked alike, and the arrays still agree with one another (`Arranged`).

All of this holds as long as the elements can be counted in 32 bits. One more, and the partition has a
block that is empty. -/

namespace IntervalAutomata.Partition

/-- Marks some elements and splits. -/
def round (p : Partition) (xs : List Nat) : Partition := (p.markAll xs).split.2

def rounds (p : Partition) (marks : List (List Nat)) : Partition := marks.foldl round p

/-- The elements are permuted, and each knows its position and its block. The blocks are stretches that
share no position and leave none out. -/
structure Arranged (p : Partition) (n : Nat) : Prop where
  perm : p.elements.toList.Perm (List.range n)
  size_location : p.location.size = n
  place_element : ∀ i < n, p.place (p.element i) = i
  element_place : ∀ x < n, p.element (p.place x) = x
  stretch : ∀ b < p.blocks.size, (p.block b).first < (p.block b).stop ∧ (p.block b).stop ≤ n
  existsUnique_block : ∀ i < n, ∃! b, b < p.blocks.size ∧ (p.block b).first ≤ i ∧ i < (p.block b).stop
  nodup_members : ∀ b, (p.members b).Nodup
  mem_members : ∀ b < p.blocks.size, ∀ x, x ∈ p.members b ↔ x < n ∧ p.blockOf x = b

variable {p q : Partition} {n x y b i : Nat} {xs : List Nat} {marks : List (List Nat)}

/-! ## Arrays -/

theorem Sound.toList_elements (h : p.Sound n) : p.elements.toList = (List.range n).map p.element := by
  refine List.ext_getElem (by simp [h.size_elements]) fun i hi _ => ?_
  rw [List.getElem_map, List.getElem_range, element, Array.getD_eq_getD_getElem?, ← Array.getElem?_toList,
    List.getElem?_eq_getElem hi, Option.getD_some]

theorem Sound.perm (h : p.Sound n) : p.elements.toList.Perm (List.range n) := by
  rw [h.toList_elements]
  refine (List.perm_ext_iff_of_nodup ?_ List.nodup_range).mpr fun x => ?_
  · refine List.Nodup.map_on (fun i hi j hj hij => ?_) List.nodup_range
    rw [← h.place_element i (List.mem_range.mp hi), hij, h.place_element j (List.mem_range.mp hj)]
  · rw [List.mem_map, List.mem_range]
    constructor
    · rintro ⟨i, hi, rfl⟩
      exact h.element_lt i (List.mem_range.mp hi)
    · intro hx
      exact ⟨p.place x, List.mem_range.mpr (h.place_lt x hx), h.element_place x hx⟩

theorem Sound.nodup_members (h : p.Sound n) (b : Nat) : (p.members b).Nodup := by
  rw [members, Array.toList_extract, List.extract_eq_take_drop]
  refine List.Nodup.sublist ((List.take_sublist _ _).trans (List.drop_sublist _ _)) ?_
  exact h.perm.symm.nodup List.nodup_range

/-- A position belongs to the block of the element that stands there. -/
theorem Sound.existsUnique_block (h : p.Sound n) (hi : i < n) :
    ∃! b, b < p.blocks.size ∧ (p.block b).first ≤ i ∧ i < (p.block b).stop := by
  have hx := h.element_lt i hi
  have hwithin := h.within _ hx
  rw [h.place_element i hi] at hwithin
  refine ⟨p.blockOf (p.element i), ?_, fun b ⟨hb, hin⟩ => ((hwithin b hb).mp hin).symm⟩
  exact ⟨h.blockOf_lt _ hx, (hwithin _ (h.blockOf_lt _ hx)).mpr rfl⟩

theorem Sound.arranged (h : p.Sound n) : p.Arranged n where
  perm := h.perm
  size_location := h.size_location
  place_element := h.place_element
  element_place := h.element_place
  stretch b hb := ⟨h.first_lt_stop b hb, h.stop_le b hb⟩
  existsUnique_block _ hi := h.existsUnique_block hi
  nodup_members := h.nodup_members
  mem_members _ hb _ := h.mem_members hb

theorem members_of_size_le (hb : p.blocks.size ≤ b) : p.members b = [] := by
  have hblock : p.block b = default := by
    rw [block, Array.getD_eq_getD_getElem?, Array.getElem?_eq_none hb, Option.getD_none]
  rw [members, hblock]
  simp [default, instInhabitedBlock.default]

/-! ## Blocks after a split -/

section

variable {inside : Nat → Prop} {splits : List (Nat × Nat)}

/-- What stays in a block is all of it, or what is outside where the block was split. -/
theorem Splits.blockOf_eq_iff (h : Splits n inside p q splits) (hx : x < n) (hb : b < p.blocks.size) :
    q.blockOf x = b ↔ p.blockOf x = b ∧ ¬ (inside x ∧ ∃ f, (b, f) ∈ splits) := by
  constructor
  · intro hxb
    rcases h.cases hx with hstay | ⟨-, hmoved⟩
    · refine ⟨hstay.symm.trans hxb, fun ⟨hin, f, hf⟩ => ?_⟩
      have hxf := (h.moved _ hf x hx).mpr ⟨hstay.symm.trans hxb, hin⟩
      have := (h.fresh _ hf).2.1
      omega
    · have := (h.fresh _ hmoved).2.1
      omega
  · intro ⟨hxb, hnot⟩
    rw [← hxb]
    refine h.stays x hx fun s hs ⟨hxs, hin⟩ => hnot ⟨hin, s.2, ?_⟩
    rw [← hxb, hxs]
    exact hs

variable (hp : p.Sound n) (hq : q.Sound n) (h : Splits n inside p q splits)

include hp hq h

/-- A new block is what is inside of the block that it was split from. -/
theorem Splits.mem_members_new {s : Nat × Nat} (hs : s ∈ splits) :
    x ∈ q.members s.2 ↔ x ∈ p.members s.1 ∧ inside x := by
  obtain ⟨hold, -, hnew⟩ := h.fresh s hs
  rw [hq.mem_members hnew, hp.mem_members hold, and_assoc]
  exact and_congr_right fun hx => h.moved s hs x hx

theorem Splits.mem_members_old (hb : b < p.blocks.size) :
    x ∈ q.members b ↔ x ∈ p.members b ∧ ¬ (inside x ∧ ∃ f, (b, f) ∈ splits) := by
  have hb' : b < q.blocks.size := by
    rw [h.size_eq]
    omega
  rw [hq.mem_members hb', hp.mem_members hb, and_assoc]
  exact and_congr_right fun hx => h.blockOf_eq_iff hx hb

omit hq in
/-- The blocks that are split are those with members on both sides. -/
theorem Splits.exists_iff_mixed : (∃ f, (b, f) ∈ splits) ↔
    (∃ x ∈ p.members b, inside x) ∧ ∃ y ∈ p.members b, ¬ inside y := by
  by_cases hb : b < p.blocks.size
  · simp only [h.mixed b hb, hp.mem_members hb, and_assoc]
  · rw [members_of_size_le (Nat.le_of_not_lt hb)]
    exact iff_of_false (fun ⟨f, hf⟩ => hb (h.fresh _ hf).1) (by simp)

end

/-! ## Rounds -/

theorem Clean.rounds (h : p.Clean n) (hmarks : ∀ xs ∈ marks, ∀ x ∈ xs, x < n) :
    (p.rounds marks).Clean n ∧ ∀ x < n, ∀ y < n, (p.rounds marks).blockOf x = (p.rounds marks).blockOf y ↔
      p.blockOf x = p.blockOf y ∧ ∀ xs ∈ marks, (x ∈ xs ↔ y ∈ xs) := by
  induction marks generalizing p with
  | nil => exact ⟨h, fun x _ y _ => by simp [Partition.rounds]⟩
  | cons xs marks ih =>
    obtain ⟨hxs, hmarks⟩ := List.forall_mem_cons.mp hmarks
    obtain ⟨hclean, hsplits⟩ := h.round hxs
    obtain ⟨hend, hsame⟩ := ih hclean hmarks
    refine ⟨hend, fun x hx y hy => ?_⟩
    rw [List.forall_mem_cons, ← and_assoc, ← hsplits.same_iff h.blockOf_lt hx hy]
    exact hsame x hx y hy

theorem Clean.mid_eq (h : p.Clean n) (hb : b < p.blocks.size) : (p.block b).mid = (p.block b).first := by
  refine Nat.le_antisymm (Nat.le_of_not_lt fun hlt => ?_) (h.first_le_mid b hb)
  have hmem := (h.lists.mem_iff b).mpr ⟨hb, hlt⟩
  rw [h.touched_eq] at hmem
  cases hmem

theorem blockOf_new (hx : x < n) : (new n).blockOf x = 0 := by
  simp [blockOf, new, Array.getD_eq_getD_getElem?, hx]

theorem new_eq_whole (h : n < 2 ^ 32) : new n = whole n := by
  rw [new, whole, placed, UInt32.toNat_ofNat_of_lt' h]

theorem Sound.canMark (h : p.Sound n) (hx : x < n) : p.canMark x = true := by
  rw [Partition.canMark, h.size_owner, h.size_location, decide_eq_true hx]
  rfl

/-- **The partition is exact after any rounds**, as long as its elements can be counted in 32 bits. Nothing
is marked then, each element can be, two elements share a block exactly when each round so far has marked
both of them or neither, and the arrays agree, also while elements are being marked. The next split lists
each block with members of both kinds once, with a new block that takes over the marked ones; what it does
not list stays as it is. -/
theorem rounds_exact (hn : 0 < n) (hfits : n < 2 ^ 32) (hmarks : ∀ xs ∈ marks, ∀ x ∈ xs, x < n)
    (hp : (new n).rounds marks = p) :
    (∀ x < n, p.canMark x = true) ∧ p.Arranged n ∧ p.touched = #[] ∧
    (∀ b < p.blocks.size, (p.block b).mid = (p.block b).first) ∧
    (∀ x < n, ∀ y < n, p.blockOf x = p.blockOf y ↔ ∀ xs ∈ marks, (x ∈ xs ↔ y ∈ xs)) ∧
    ∀ (xs : List Nat) splits q, (∀ x ∈ xs, x < n) → (p.markAll xs).split = (splits, q) →
      (p.markAll xs).Arranged n ∧ q.Arranged n ∧
      q.blocks.size = p.blocks.size + splits.length ∧ (splits.map (·.1)).Nodup ∧
      (∀ b, (∃ f, (b, f) ∈ splits) ↔ (∃ x ∈ p.members b, x ∈ xs) ∧ ∃ y ∈ p.members b, y ∉ xs) ∧
      (∀ s ∈ splits, ∀ x, (x ∈ q.members s.2 ↔ x ∈ p.members s.1 ∧ x ∈ xs) ∧
        (x ∈ q.members s.1 ↔ x ∈ p.members s.1 ∧ x ∉ xs)) ∧
      ∀ b < p.blocks.size, (∀ f, (b, f) ∉ splits) → ∀ x, x ∈ q.members b ↔ x ∈ p.members b := by
  obtain ⟨hclean, hsame⟩ := (clean_whole hn).rounds hmarks
  rw [← new_eq_whole hfits, hp] at hclean hsame
  have hsound := hclean.toSound
  refine ⟨fun x hx => hsound.canMark hx, hsound.arranged, hclean.touched_eq,
    fun b hb => hclean.mid_eq hb, fun x hx y hy => ?_, fun xs splits q hxs hsplit => ?_⟩
  · rw [hsame x hx y hy, blockOf_new hx, blockOf_new hy, and_iff_right rfl]
  · obtain ⟨hmarked, -⟩ := hsound.markAll hclean.lists hxs
    obtain ⟨hnext, hsplits⟩ := hclean.round hxs
    rw [hsplit] at hnext hsplits
    refine ⟨hmarked.arranged, hnext.toSound.arranged, hsplits.size_eq, hsplits.nodup,
      fun b => hsplits.exists_iff_mixed hsound, fun s hs x => ⟨?_, ?_⟩, fun b hb hnone x => ?_⟩
    · exact hsplits.mem_members_new hsound hnext.toSound hs
    · rw [hsplits.mem_members_old hsound hnext.toSound (hsplits.fresh s hs).1, not_and_or,
        or_iff_left (not_not_intro ⟨s.2, hs⟩)]
    · rw [hsplits.mem_members_old hsound hnext.toSound hb,
        and_iff_left fun h => h.2.elim fun f hf => hnone f hf]

/-- In a third round one block is split, one is marked as a whole, and nothing of the last one is marked. -/
theorem rounds_exact_six :
    (∀ xs ∈ [[4, 1, 4], [5, 0, 0]], ∀ x ∈ xs, x < 6) ∧
    ((new 6).rounds [[4, 1, 4], [5, 0, 0]]).Arranged 6 ∧
    (∀ x < 6, ∀ y < 6, ((new 6).rounds [[4, 1, 4], [5, 0, 0]]).blockOf x =
      ((new 6).rounds [[4, 1, 4], [5, 0, 0]]).blockOf y ↔
        ∀ xs ∈ [[4, 1, 4], [5, 0, 0]], (x ∈ xs ↔ y ∈ xs)) ∧
    ∃ f, (1, f) ∈ (((new 6).rounds [[4, 1, 4], [5, 0, 0]]).markAll [3, 2, 4]).split.1 := by
  have hmarks : ∀ xs ∈ [[4, 1, 4], [5, 0, 0]], ∀ x ∈ xs, x < 6 := by decide
  obtain ⟨-, harranged, -, -, hsame, hnext⟩ := rounds_exact (n := 6) (by decide) (by decide) hmarks rfl
  obtain ⟨-, -, -, -, hmixed, -⟩ := hnext [3, 2, 4] _ _ (by decide) rfl
  exact ⟨hmarks, harranged, hsame, (hmixed 1).mpr (by decide)⟩

/-- Of so many elements none gets a position: each is in the one block, which has no members, and none
can be marked. -/
theorem new_unplaced :
    ¬ ((new (2 ^ 32)).rounds []).Arranged (2 ^ 32) ∧ (new (2 ^ 32)).blockOf 0 = 0 ∧
      (new (2 ^ 32)).members 0 = [] ∧ (new (2 ^ 32)).canMark 0 = false := by
  have hplaced : placed (2 ^ 32) = 0 := by rw [placed, UInt32.toNat_ofNat', Nat.mod_self]
  have helements : (new (2 ^ 32)).elements = #[] := by rw [new, hplaced]; rfl
  have hlocation : (new (2 ^ 32)).location = #[] := by rw [new, hplaced]; rfl
  refine ⟨fun h => ?_, blockOf_new (by decide), ?_, ?_⟩
  · have hlength := h.perm.length_eq
    rw [rounds, List.foldl_nil, helements, List.length_range] at hlength
    cases hlength
  · rw [members, helements, Array.extract_empty]
  · rw [canMark, hlocation]
    exact Bool.and_false _

end IntervalAutomata.Partition
