import IntervalAutomata.Partition
import IntervalAutomata.Proofs.Arrays
import Mathlib.Data.Finset.Card
import Mathlib.Data.List.Nodup
import Mathlib.Tactic.Tauto

/-! # Marking and splitting

The elements stand in an array with its inverse beside it, and every block is a stretch of the array
(`Sound`). Marking swaps an element into the marked part of its block, so the blocks stay what they
were. Splitting gives each marked part that is not a whole block a number of its own: afterwards two
elements share a block exactly when they did before and both or neither were marked. -/

namespace IntervalAutomata.Partition

/-- The element at a position. -/
def element (p : Partition) (i : Nat) : Nat := p.elements.getD i 0

/-- The position of an element. -/
def place (p : Partition) (x : Nat) : Nat := p.location.getD x 0

structure Sound (p : Partition) (n : Nat) : Prop where
  size_elements : p.elements.size = n
  size_location : p.location.size = n
  size_owner : p.owner.size = n
  element_lt : ∀ i < n, p.element i < n
  place_element : ∀ i < n, p.place (p.element i) = i
  place_lt : ∀ x < n, p.place x < n
  element_place : ∀ x < n, p.element (p.place x) = x
  blockOf_lt : ∀ x < n, p.blockOf x < p.blocks.size
  within : ∀ x < n, ∀ b < p.blocks.size,
    (p.block b).first ≤ p.place x ∧ p.place x < (p.block b).stop ↔ p.blockOf x = b
  first_le_mid : ∀ b < p.blocks.size, (p.block b).first ≤ (p.block b).mid
  mid_le_stop : ∀ b < p.blocks.size, (p.block b).mid ≤ (p.block b).stop
  first_lt_stop : ∀ b < p.blocks.size, (p.block b).first < (p.block b).stop
  stop_le : ∀ b < p.blocks.size, (p.block b).stop ≤ n

/-- Element `x` stands in the marked part of its block. -/
def Marked (p : Partition) (x : Nat) : Prop := p.place x < (p.block (p.blockOf x)).mid

instance (p : Partition) : DecidablePred p.Marked := fun _ => Nat.decLt _ _

/-- The blocks with a marked part, each once. -/
structure Lists (p : Partition) (bs : List Nat) : Prop where
  nodup : bs.Nodup
  mem_iff : ∀ b, b ∈ bs ↔ b < p.blocks.size ∧ (p.block b).first < (p.block b).mid

variable {p : Partition} {n x y b i : Nat} {xs bs : List Nat}

/-! ## Positions -/

theorem Sound.element_eq_iff (h : p.Sound n) (hi : i < n) (hx : x < n) :
    p.element i = x ↔ p.place x = i := by
  constructor
  · rintro rfl
    exact h.place_element i hi
  · rintro rfl
    exact h.element_place x hx

theorem Sound.mem_stretch (h : p.Sound n) {i j : Nat} (hj : j ≤ n) :
    x ∈ (p.elements.extract i j).toList ↔ x < n ∧ i ≤ p.place x ∧ p.place x < j := by
  rw [Array.mem_toList_iff, Array.mem_extract_iff_getElem]
  have hget : ∀ {k : Nat} (hk : k < p.elements.size), p.elements[k] = p.element k := by
    intro k hk
    rw [element, Array.getD_eq_getD_getElem?, Array.getElem?_eq_getElem hk, Option.getD_some]
  constructor
  · rintro ⟨k, hk, rfl⟩
    have hlt : i + k < n := by omega
    rw [hget, h.place_element _ hlt]
    exact ⟨h.element_lt _ hlt, by omega, by omega⟩
  · intro ⟨hx, hi, hlt⟩
    have hsize := h.size_elements
    refine ⟨p.place x - i, by omega, ?_⟩
    rw [hget, Nat.add_sub_cancel' hi, h.element_place x hx]

theorem Sound.mem_members (h : p.Sound n) (hb : b < p.blocks.size) :
    x ∈ p.members b ↔ x < n ∧ p.blockOf x = b := by
  rw [members, h.mem_stretch (h.stop_le b hb)]
  exact and_congr_right fun hx => h.within x hx b hb

theorem Sound.within_own (h : p.Sound n) (hx : x < n) :
    (p.block (p.blockOf x)).first ≤ p.place x ∧ p.place x < (p.block (p.blockOf x)).stop :=
  (h.within x hx _ (h.blockOf_lt x hx)).mpr rfl

/-- Every block has a member. -/
theorem Sound.exists_member (h : p.Sound n) (hb : b < p.blocks.size) :
    ∃ x < n, p.blockOf x = b ∧ p.place x = (p.block b).first := by
  have hlt := h.first_lt_stop b hb
  have hn := Nat.lt_of_lt_of_le hlt (h.stop_le b hb)
  have hplace := h.place_element _ hn
  refine ⟨_, h.element_lt _ hn, ?_, hplace⟩
  rw [← h.within _ (h.element_lt _ hn) b hb, hplace]
  exact ⟨Nat.le_refl _, hlt⟩

/-- There are no more blocks than elements. -/
theorem Sound.blocks_le (h : p.Sound n) : p.blocks.size ≤ n := by
  have hcard := Finset.card_le_card_of_injOn (s := Finset.range p.blocks.size) (t := Finset.range n)
    (fun b => p.element (p.block b).first) ?_ ?_
  · simpa using hcard
  · intro b hb
    have hb := Finset.mem_range.mp hb
    have := h.first_lt_stop b hb
    have := h.stop_le b hb
    exact Finset.mem_coe.mpr (Finset.mem_range.mpr (h.element_lt _ (by omega)))
  · intro b hb c hc heq
    obtain ⟨x, hx, rfl, hplace⟩ := h.exists_member (Finset.mem_range.mp hb)
    obtain ⟨y, hy, rfl, hplace'⟩ := h.exists_member (Finset.mem_range.mp hc)
    dsimp only at heq
    rw [← hplace, ← hplace', h.element_place x hx, h.element_place y hy] at heq
    rw [heq]

/-! ## Marking -/

/-- Where the marked part of the block of `x` ends. -/
def border (p : Partition) (x : Nat) : Nat := (p.block (p.blockOf x)).mid

theorem mark_of_marked (h : p.Marked x) : p.mark x = p := if_pos h

theorem mark_of_not_marked (h : ¬ p.Marked x) : p.mark x =
    { elements :=
        (p.elements.setIfInBounds (p.place x) (p.element (p.border x))).setIfInBounds (p.border x) x
      location :=
        (p.location.setIfInBounds (p.element (p.border x)) (p.place x)).setIfInBounds x (p.border x)
      owner := p.owner
      blocks := p.blocks.setIfInBounds (p.blockOf x)
        { p.block (p.blockOf x) with mid := p.border x + 1 }
      touched := if p.border x = (p.block (p.blockOf x)).first then p.touched.push (p.blockOf x)
        else p.touched } := if_neg h

@[simp] theorem blockOf_mark (p : Partition) (x y : Nat) : (p.mark x).blockOf y = p.blockOf y := by
  unfold mark
  dsimp only
  split <;> rfl

@[simp] theorem size_blocks_mark (p : Partition) (x : Nat) :
    (p.mark x).blocks.size = p.blocks.size := by
  unfold mark
  dsimp only
  split
  · rfl
  · exact Array.size_setIfInBounds

theorem Sound.border_lt (h : p.Sound n) (hx : x < n) (hm : ¬ p.Marked x) :
    p.border x < n ∧ p.border x ≤ p.place x ∧ (p.block (p.blockOf x)).first ≤ p.border x := by
  have hle : p.border x ≤ p.place x := Nat.le_of_not_lt hm
  exact ⟨Nat.lt_of_le_of_lt hle (h.place_lt x hx), hle, h.first_le_mid _ (h.blockOf_lt x hx)⟩

theorem Sound.element_mark (h : p.Sound n) (hx : x < n) (hm : ¬ p.Marked x) (i : Nat) :
    (p.mark x).element i = if i = p.border x then x
      else if i = p.place x then p.element (p.border x) else p.element i := by
  have hborder := (h.border_lt hx hm).1
  have hplace := h.place_lt x hx
  rw [mark_of_not_marked hm, element, getD_setIfInBounds, getD_setIfInBounds,
    Array.size_setIfInBounds, h.size_elements]
  grind [element]

theorem Sound.place_mark (h : p.Sound n) (hx : x < n) (hm : ¬ p.Marked x) (y : Nat) :
    (p.mark x).place y = if y = x then p.border x
      else if y = p.element (p.border x) then p.place x else p.place y := by
  have hother := h.element_lt _ (h.border_lt hx hm).1
  rw [mark_of_not_marked hm, place, getD_setIfInBounds, getD_setIfInBounds,
    Array.size_setIfInBounds, h.size_location]
  grind [place]

theorem Sound.block_mark (h : p.Sound n) (hx : x < n) (hm : ¬ p.Marked x) (b : Nat) :
    (p.mark x).block b = if b = p.blockOf x then
      ⟨(p.block b).first, p.border x + 1, (p.block b).stop⟩ else p.block b := by
  have hb := h.blockOf_lt x hx
  rw [mark_of_not_marked hm, block, getD_setIfInBounds]
  grind [block]

theorem Sound.mid_mark (h : p.Sound n) (hx : x < n) (hm : ¬ p.Marked x) (b : Nat) :
    ((p.mark x).block b).mid = if b = p.blockOf x then p.border x + 1 else (p.block b).mid := by
  rw [h.block_mark hx hm]
  split <;> rfl

/-- Marking leaves the stretch of a block as it is. -/
theorem Sound.stretch_mark (h : p.Sound n) (hx : x < n) (hm : ¬ p.Marked x) (b : Nat) :
    ((p.mark x).block b).first = (p.block b).first ∧
      ((p.mark x).block b).stop = (p.block b).stop := by
  rw [h.block_mark hx hm]
  split <;> exact ⟨rfl, rfl⟩

/-- The element at the border of `x`, with which `x` changes places, is in the same block. -/
theorem Sound.blockOf_border (h : p.Sound n) (hx : x < n) (hm : ¬ p.Marked x) :
    p.blockOf (p.element (p.border x)) = p.blockOf x := by
  obtain ⟨hborder, hle, hfirst⟩ := h.border_lt hx hm
  rw [← h.within _ (h.element_lt _ hborder) _ (h.blockOf_lt x hx), h.place_element _ hborder]
  exact ⟨hfirst, Nat.lt_of_le_of_lt hle (h.within_own hx).2⟩

/-- Every element stays in the stretch of its block. -/
theorem Sound.within_mark (h : p.Sound n) (hx : x < n) (hm : ¬ p.Marked x) (hy : y < n)
    (hb : b < p.blocks.size) :
    (p.block b).first ≤ (p.mark x).place y ∧ (p.mark x).place y < (p.block b).stop ↔
      p.blockOf y = b := by
  have hborder := (h.border_lt hx hm).1
  have hsame := h.blockOf_border hx hm
  rw [h.place_mark hx hm]
  by_cases hyx : y = x
  · rw [if_pos hyx, hyx, ← hsame, ← h.within _ (h.element_lt _ hborder) b hb,
      h.place_element _ hborder]
  · rw [if_neg hyx]
    split
    · rename_i hy'
      rw [hy', hsame]
      exact h.within x hx b hb
    · exact h.within y hy b hb

theorem Sound.mark (h : p.Sound n) (hx : x < n) : (p.mark x).Sound n := by
  by_cases hm : p.Marked x
  · rwa [mark_of_marked hm]
  obtain ⟨hborder, hle, hfirst⟩ := h.border_lt hx hm
  have hown := h.within_own hx
  have hself := h.element_place x hx
  have hother := h.place_element _ hborder
  have hother_lt := h.element_lt _ hborder
  have hplace := h.place_lt x hx
  have hstretch := h.stretch_mark hx hm
  constructor
  case size_elements => rw [mark_of_not_marked hm]; simp [h.size_elements]
  case size_location => rw [mark_of_not_marked hm]; simp [h.size_location]
  case size_owner => rw [mark_of_not_marked hm]; exact h.size_owner
  case element_lt =>
    intro i hi
    rw [h.element_mark hx hm]
    have := h.element_lt i hi
    grind
  case place_element =>
    intro i hi
    rw [h.element_mark hx hm, h.place_mark hx hm]
    have := h.place_element
    grind
  case place_lt =>
    intro y hy
    rw [h.place_mark hx hm]
    have := h.place_lt y hy
    grind
  case element_place =>
    intro y hy
    rw [h.place_mark hx hm, h.element_mark hx hm]
    have := h.element_place y hy
    grind
  case blockOf_lt => simpa using h.blockOf_lt
  case within =>
    intro y hy b hb
    rw [size_blocks_mark] at hb
    rw [(hstretch b).1, (hstretch b).2, blockOf_mark]
    exact h.within_mark hx hm hy hb
  case first_le_mid =>
    intro b hb
    rw [size_blocks_mark] at hb
    rw [(hstretch b).1, h.mid_mark hx hm]
    have := h.first_le_mid b hb
    grind
  case mid_le_stop =>
    intro b hb
    rw [size_blocks_mark] at hb
    rw [(hstretch b).2, h.mid_mark hx hm]
    have := h.mid_le_stop b hb
    grind
  case first_lt_stop =>
    intro b hb
    rw [size_blocks_mark] at hb
    rw [(hstretch b).1, (hstretch b).2]
    exact h.first_lt_stop b hb
  case stop_le =>
    intro b hb
    rw [size_blocks_mark] at hb
    rw [(hstretch b).2]
    exact h.stop_le b hb

/-- Nothing but `x` becomes marked. -/
theorem Sound.marked_mark (h : p.Sound n) (hx : x < n) (hy : y < n) :
    (p.mark x).Marked y ↔ p.Marked y ∨ y = x := by
  by_cases hm : p.Marked x
  · rw [mark_of_marked hm]
    exact ⟨.inl, fun hy => hy.elim id fun heq => heq ▸ hm⟩
  obtain ⟨hborder, hle, hfirst⟩ := h.border_lt hx hm
  have hself := h.element_place x hx
  have hother := h.place_element _ hborder
  have hinj := h.element_eq_iff hborder hy
  have hown := h.within_own hx
  have hin := h.within y hy _ (h.blockOf_lt x hx)
  rw [Marked, h.place_mark hx hm, blockOf_mark, h.block_mark hx hm, Marked]
  unfold Marked at hm
  simp only [border] at *
  grind

theorem Sound.lists_mark (h : p.Sound n) (hx : x < n) (ht : p.Lists p.touched.toList) :
    (p.mark x).Lists (p.mark x).touched.toList := by
  by_cases hm : p.Marked x
  · rwa [mark_of_marked hm]
  obtain ⟨hborder, hle, hfirst⟩ := h.border_lt hx hm
  have hb := h.blockOf_lt x hx
  have htouched : (p.mark x).touched.toList =
      if p.border x = (p.block (p.blockOf x)).first then p.touched.toList ++ [p.blockOf x]
      else p.touched.toList := by
    rw [mark_of_not_marked hm]
    dsimp only
    split <;> simp
  rw [htouched]
  refine ⟨?_, fun b => ?_⟩
  · split
    · rename_i hempty
      refine List.nodup_append.mpr ⟨ht.nodup, List.nodup_singleton _, fun b hb c hc => ?_⟩
      have := (ht.mem_iff b).mp hb
      simp only [List.mem_singleton, border] at hc hempty
      grind
    · exact ht.nodup
  · have hmem := ht.mem_iff b
    rw [size_blocks_mark, h.block_mark hx hm]
    simp only [border] at *
    grind

theorem Sound.markAll (h : p.Sound n) (ht : p.Lists p.touched.toList) (hxs : ∀ x ∈ xs, x < n) :
    (p.markAll xs).Sound n ∧ (p.markAll xs).Lists (p.markAll xs).touched.toList ∧
      (p.markAll xs).blocks.size = p.blocks.size ∧
      (∀ y, (p.markAll xs).blockOf y = p.blockOf y) ∧
      ∀ y < n, (p.markAll xs).Marked y ↔ p.Marked y ∨ y ∈ xs := by
  induction xs generalizing p with
  | nil => exact ⟨h, ht, rfl, fun _ => rfl, fun y _ => by simp [Partition.markAll]⟩
  | cons x xs ih =>
    have hx := hxs x (by simp)
    obtain ⟨hsound, hlists, hsize, hblock, hmarked⟩ :=
      ih (h.mark hx) (h.lists_mark hx ht) fun y hy => hxs y (by simp [hy])
    refine ⟨hsound, hlists, hsize.trans (size_blocks_mark p x),
      fun y => (hblock y).trans (blockOf_mark p x y), fun y hy => ?_⟩
    rw [Partition.markAll, List.foldl_cons]
    refine (hmarked y hy).trans ?_
    rw [h.marked_mark hx hy, List.mem_cons, or_assoc]

/-! ## Splitting -/

/-- A block that is marked as a whole stays and loses its marks. -/
theorem splitBlock_whole (hw : (p.block b).mid = (p.block b).stop) : p.splitBlock b =
    (none, { p with
      blocks := p.blocks.setIfInBounds b { p.block b with mid := (p.block b).first } }) := if_pos hw

theorem splitBlock_part (hw : (p.block b).mid ≠ (p.block b).stop) : p.splitBlock b =
    (some p.blocks.size,
      { p with
        blocks := (p.blocks.setIfInBounds b
          ⟨(p.block b).mid, (p.block b).mid, (p.block b).stop⟩).push
            ⟨(p.block b).first, (p.block b).first, (p.block b).mid⟩
        owner := (p.elements.extract (p.block b).first (p.block b).mid).toList.foldl
          (fun owner x => owner.setIfInBounds x p.blocks.size) p.owner }) := if_neg hw

/-- Blocks may be drawn anew over elements that stay where they are. -/
theorem Sound.reblock (h : p.Sound n) {q : Partition} (helements : q.elements = p.elements)
    (hlocation : q.location = p.location) (howner : q.owner.size = n)
    (hlt : ∀ x < n, q.blockOf x < q.blocks.size)
    (hwithin : ∀ x < n, ∀ b < q.blocks.size,
      (q.block b).first ≤ p.place x ∧ p.place x < (q.block b).stop ↔ q.blockOf x = b)
    (hbounds : ∀ b < q.blocks.size, (q.block b).first ≤ (q.block b).mid ∧
      (q.block b).mid ≤ (q.block b).stop ∧ (q.block b).first < (q.block b).stop ∧
      (q.block b).stop ≤ n) : q.Sound n := by
  have helement : ∀ i, q.element i = p.element i := fun i => by rw [element, helements, element]
  have hplace : ∀ x, q.place x = p.place x := fun x => by rw [place, hlocation, place]
  constructor
  case size_elements => rw [helements]; exact h.size_elements
  case size_location => rw [hlocation]; exact h.size_location
  case size_owner => exact howner
  case element_lt => simpa only [helement] using h.element_lt
  case place_element => simpa only [helement, hplace] using h.place_element
  case place_lt => simpa only [hplace] using h.place_lt
  case element_place => simpa only [helement, hplace] using h.element_place
  case blockOf_lt => exact hlt
  case within => simpa only [hplace] using hwithin
  case first_le_mid => exact fun b hb => (hbounds b hb).1
  case mid_le_stop => exact fun b hb => (hbounds b hb).2.1
  case first_lt_stop => exact fun b hb => (hbounds b hb).2.2.1
  case stop_le => exact fun b hb => (hbounds b hb).2.2.2

theorem Sound.splitBlock_whole (h : p.Sound n) (hb : b < p.blocks.size)
    (hw : (p.block b).mid = (p.block b).stop) :
    (p.splitBlock b).2.Sound n ∧
      (∀ c, (p.splitBlock b).2.block c =
        if c = b then { p.block b with mid := (p.block b).first } else p.block c) ∧
      ∀ x < n, p.blockOf x = b → p.Marked x := by
  have hblock : ∀ c, (p.splitBlock b).2.block c =
      if c = b then { p.block b with mid := (p.block b).first } else p.block c := by
    intro c
    rw [Partition.splitBlock_whole hw, block, getD_setIfInBounds]
    grind [block]
  have hsize : (p.splitBlock b).2.blocks.size = p.blocks.size := by
    rw [Partition.splitBlock_whole hw]
    exact Array.size_setIfInBounds
  have howner : ∀ x, (p.splitBlock b).2.blockOf x = p.blockOf x := by
    intro x
    rw [Partition.splitBlock_whole hw]
    rfl
  refine ⟨h.reblock ?_ ?_ ?_ (fun x hx => ?_) (fun x hx c hc => ?_) (fun c hc => ?_), hblock, ?_⟩
  · rw [Partition.splitBlock_whole hw]
  · rw [Partition.splitBlock_whole hw]
  · rw [Partition.splitBlock_whole hw]
    exact h.size_owner
  · rw [howner, hsize]
    exact h.blockOf_lt x hx
  · rw [hsize] at hc
    rw [howner, hblock]
    have := h.within x hx c hc
    split
    · rename_i hcb
      exact hcb ▸ this
    · exact this
  · rw [hsize] at hc
    rw [hblock]
    have := h.first_le_mid c hc
    have := h.mid_le_stop c hc
    have := h.first_lt_stop c hc
    have := h.stop_le c hc
    grind
  · intro x hx rfl
    rw [Marked, hw]
    exact (h.within_own hx).2

theorem Sound.splitBlock_part (h : p.Sound n) (hb : b < p.blocks.size)
    (hm : (p.block b).first < (p.block b).mid) (hw : (p.block b).mid ≠ (p.block b).stop) :
    (p.splitBlock b).2.Sound n ∧
      (∀ c, (p.splitBlock b).2.block c =
        if c = b then ⟨(p.block b).mid, (p.block b).mid, (p.block b).stop⟩
        else if c = p.blocks.size then ⟨(p.block b).first, (p.block b).first, (p.block b).mid⟩
        else p.block c) ∧
      (∀ x < n, (p.splitBlock b).2.blockOf x =
        if p.blockOf x = b ∧ p.Marked x then p.blocks.size else p.blockOf x) ∧
      ∃ x < n, p.blockOf x = b ∧ ¬ p.Marked x := by
  have hstop := h.stop_le b hb
  have hmid := h.mid_le_stop b hb
  have hblock : ∀ c, (p.splitBlock b).2.block c =
      if c = b then ⟨(p.block b).mid, (p.block b).mid, (p.block b).stop⟩
      else if c = p.blocks.size then ⟨(p.block b).first, (p.block b).first, (p.block b).mid⟩
      else p.block c := by
    intro c
    rw [Partition.splitBlock_part hw]
    simp only [block, Array.getD_eq_getD_getElem?, Array.getElem?_push, Array.size_setIfInBounds,
      Array.getElem?_setIfInBounds]
    grind
  have hsize : (p.splitBlock b).2.blocks.size = p.blocks.size + 1 := by
    rw [Partition.splitBlock_part hw]
    simp
  have howner : ∀ x < n, (p.splitBlock b).2.blockOf x =
      if p.blockOf x = b ∧ p.Marked x then p.blocks.size else p.blockOf x := by
    intro x hx
    have hmoved := h.mem_stretch (x := x) (i := (p.block b).first)
      (Nat.le_trans hmid hstop)
    have hown := h.within x hx b hb
    rw [Partition.splitBlock_part hw, blockOf, getD_foldl_setIfInBounds, h.size_owner]
    simp only [Marked, blockOf] at *
    grind
  refine ⟨h.reblock ?_ ?_ ?_ (fun x hx => ?_) (fun x hx c hc => ?_) (fun c hc => ?_), hblock, howner,
    ?_⟩
  · rw [Partition.splitBlock_part hw]
  · rw [Partition.splitBlock_part hw]
  · rw [Partition.splitBlock_part hw]
    exact (size_foldl_setIfInBounds ..).trans h.size_owner
  · rw [howner x hx, hsize]
    have := h.blockOf_lt x hx
    split <;> omega
  · rw [howner x hx, hblock]
    have := h.within x hx
    have := h.blockOf_lt x hx
    have := h.within_own hx
    simp only [Marked]
    grind
  · rw [hblock]
    have := h.first_le_mid c
    have := h.mid_le_stop c
    have := h.first_lt_stop c
    have := h.stop_le c
    grind
  · have hlt : (p.block b).mid < n := by omega
    have hx := h.element_lt _ hlt
    have hplace := h.place_element _ hlt
    have hown := h.within _ hx b hb
    rw [hplace] at hown
    refine ⟨_, hx, hown.mp ⟨by omega, by omega⟩, ?_⟩
    rw [Marked, hplace, hown.mp ⟨by omega, by omega⟩]
    exact Nat.lt_irrefl _

/-- What splitting makes of a partition: in each block that has both, the elements that are inside
move to a block of their own, and `splits` pairs the two blocks. -/
structure Splits (n : Nat) (inside : Nat → Prop) (p q : Partition) (splits : List (Nat × Nat)) :
    Prop where
  size_eq : q.blocks.size = p.blocks.size + splits.length
  nodup : (splits.map (·.1)).Nodup
  fresh : ∀ s ∈ splits, s.1 < p.blocks.size ∧ p.blocks.size ≤ s.2 ∧ s.2 < q.blocks.size
  moved : ∀ s ∈ splits, ∀ x < n, q.blockOf x = s.2 ↔ p.blockOf x = s.1 ∧ inside x
  stays : ∀ x < n, (∀ s ∈ splits, ¬ (p.blockOf x = s.1 ∧ inside x)) → q.blockOf x = p.blockOf x
  mixed : ∀ b < p.blocks.size, (∃ f, (b, f) ∈ splits) ↔
    (∃ x < n, p.blockOf x = b ∧ inside x) ∧ ∃ y < n, p.blockOf y = b ∧ ¬ inside y

section

variable {inside inside' : Nat → Prop} {p' q : Partition} {splits : List (Nat × Nat)}

theorem Splits.congr (h : Splits n inside p q splits) (hsize : p'.blocks.size = p.blocks.size)
    (hblock : ∀ x < n, p'.blockOf x = p.blockOf x) (hinside : ∀ x < n, inside' x ↔ inside x) :
    Splits n inside' p' q splits := by
  constructor
  case size_eq => rw [hsize]; exact h.size_eq
  case nodup => exact h.nodup
  case fresh => rw [hsize]; exact h.fresh
  case moved =>
    intro s hs x hx
    rw [hblock x hx, hinside x hx]
    exact h.moved s hs x hx
  case stays =>
    intro x hx hstay
    rw [hblock x hx]
    refine h.stays x hx fun s hs => ?_
    rw [← hblock x hx, ← hinside x hx]
    exact hstay s hs
  case mixed =>
    intro b hb
    rw [h.mixed b (hsize ▸ hb)]
    refine and_congr (exists_congr fun x => ?_) (exists_congr fun y => ?_)
    · exact and_congr_right fun hx => by rw [hblock x hx, hinside x hx]
    · exact and_congr_right fun hy => by rw [hblock y hy, hinside y hy]

/-- An element is where it was, or inside and in the new block that was split off its old one. -/
theorem Splits.cases (h : Splits n inside p q splits) (hx : x < n) :
    q.blockOf x = p.blockOf x ∨ inside x ∧ (p.blockOf x, q.blockOf x) ∈ splits := by
  by_cases hmoved : ∃ s ∈ splits, p.blockOf x = s.1 ∧ inside x
  · obtain ⟨s, hs, hm⟩ := hmoved
    refine .inr ⟨hm.2, ?_⟩
    rw [(h.moved s hs x hx).mpr hm, hm.1]
    exact hs
  · exact .inl (h.stays x hx fun s hs hm => hmoved ⟨s, hs, hm⟩)

/-- Splitting separates exactly the elements inside from those outside. -/
theorem Splits.same_iff (h : Splits n inside p q splits)
    (hlt : ∀ x < n, p.blockOf x < p.blocks.size) (hx : x < n) (hy : y < n) :
    q.blockOf x = q.blockOf y ↔ p.blockOf x = p.blockOf y ∧ (inside x ↔ inside y) := by
  -- a block with elements on both sides is split
  have hmixed : ∀ {x y}, x < n → y < n → p.blockOf x = p.blockOf y → inside x → ¬ inside y →
      (p.blockOf x, q.blockOf x) ∈ splits := by
    intro x y hx hy hxy hi ho
    obtain ⟨f, hf⟩ := (h.mixed _ (hlt x hx)).mpr ⟨⟨x, hx, rfl, hi⟩, y, hy, hxy.symm, ho⟩
    rwa [(h.moved _ hf x hx).mpr ⟨rfl, hi⟩]
  have hsplit : ∀ {x y}, x < n → y < n → q.blockOf x = q.blockOf y →
      (p.blockOf x, q.blockOf x) ∈ splits → p.blockOf y = p.blockOf x ∧ inside y := by
    intro x y hx hy hxy hs
    exact (h.moved _ hs y hy).mp hxy.symm
  constructor
  · intro hxy
    rcases h.cases hx with hstay | ⟨hi, hs⟩
    · rcases h.cases hy with hstay' | ⟨hi, hs⟩
      · have hold : p.blockOf x = p.blockOf y := by rw [← hstay, hxy, hstay']
        refine ⟨hold, fun hi => ?_, fun hi => ?_⟩
        · by_contra ho
          exact ho (hsplit hx hy hxy (hmixed hx hy hold hi ho)).2
        · by_contra ho
          exact ho (hsplit hy hx hxy.symm (hmixed hy hx hold.symm hi ho)).2
      · obtain ⟨hold, hi'⟩ := hsplit hy hx hxy.symm hs
        exact ⟨hold, iff_of_true hi' hi⟩
    · obtain ⟨hold, hi'⟩ := hsplit hx hy hxy hs
      exact ⟨hold.symm, iff_of_true hi hi'⟩
  · intro ⟨hold, hiff⟩
    rcases h.cases hx with hstay | ⟨hi, hs⟩
    · rcases h.cases hy with hstay' | ⟨hi, hs⟩
      · rw [hstay, hstay', hold]
      · exact (h.moved _ hs x hx).mpr ⟨hold, hiff.mpr hi⟩
    · exact ((h.moved _ hs y hy).mpr ⟨hold.symm, hiff.mp hi⟩).symm

end

/-- A block with a marked part has a marked element. -/
theorem Sound.exists_marked (h : p.Sound n) (hb : b < p.blocks.size)
    (hm : (p.block b).first < (p.block b).mid) : ∃ x < n, p.blockOf x = b ∧ p.Marked x := by
  obtain ⟨x, hx, hxb, hplace⟩ := h.exists_member hb
  refine ⟨x, hx, hxb, ?_⟩
  rwa [Marked, hxb, hplace]

theorem Sound.mem_of_marked (h : p.Sound n) (hl : p.Lists bs) (hx : x < n) (hm : p.Marked x) :
    p.blockOf x ∈ bs :=
  (hl.mem_iff _).mpr ⟨h.blockOf_lt x hx, Nat.lt_of_le_of_lt (h.within_own hx).1 hm⟩

theorem splits_nil (h : p.Sound n) (hl : p.Lists []) : Splits n p.Marked p p [] where
  size_eq := rfl
  nodup := List.nodup_nil
  fresh s hs := nomatch hs
  moved s hs := nomatch hs
  stays _ _ _ := rfl
  mixed b _ := by
    refine iff_of_false (fun h => h.elim fun _ hf => nomatch hf) ?_
    rintro ⟨⟨x, hx, -, hm⟩, -⟩
    exact nomatch h.mem_of_marked hl hx hm

section

variable {p₁ q : Partition} {splits : List (Nat × Nat)}

theorem Splits.fst_ne (hs : Splits n p₁.Marked p₁ q splits)
    (hmarked : ∀ x < n, p₁.Marked x ↔ p.Marked x ∧ p.blockOf x ≠ b)
    (hblock : ∀ x < n, p₁.Marked x → p₁.blockOf x = p.blockOf x) {s : Nat × Nat} (h : s ∈ splits) :
    s.1 ≠ b := by
  obtain ⟨⟨x, hx, hxs, hm⟩, -⟩ := (hs.mixed s.1 (hs.fresh s h).1).mp ⟨s.2, h⟩
  rw [← hxs, hblock x hx hm]
  exact ((hmarked x hx).mp hm).2

/-- Whether another block than `b` is mixed does not depend on what became of `b`. -/
theorem Splits.mixed_of_ne (hs : Splits n p₁.Marked p₁ q splits)
    (hmarked : ∀ x < n, p₁.Marked x ↔ p.Marked x ∧ p.blockOf x ≠ b) {c : Nat}
    (hc : c < p₁.blocks.size) (hcb : c ≠ b)
    (hblock : ∀ x < n, p₁.blockOf x = c ↔ p.blockOf x = c) :
    (∃ f, (c, f) ∈ splits) ↔
      (∃ x < n, p.blockOf x = c ∧ p.Marked x) ∧ ∃ y < n, p.blockOf y = c ∧ ¬ p.Marked y := by
  have hiff : ∀ x < n, p.blockOf x = c → (p₁.Marked x ↔ p.Marked x) := by
    intro x hx hxc
    rw [hmarked x hx]
    exact and_iff_left (hxc ▸ hcb)
  rw [hs.mixed c hc]
  refine and_congr (exists_congr fun x => and_congr_right fun hx => ?_)
    (exists_congr fun y => and_congr_right fun hy => ?_)
  · rw [hblock x hx]
    exact and_congr_right (hiff x hx)
  · rw [hblock y hy]
    exact and_congr_right fun hyc => not_congr (hiff y hy hyc)

theorem Splits.of_whole (hs : Splits n p₁.Marked p₁ q splits) (hsize : p₁.blocks.size = p.blocks.size)
    (hblock : ∀ x, p₁.blockOf x = p.blockOf x)
    (hmarked : ∀ x < n, p₁.Marked x ↔ p.Marked x ∧ p.blockOf x ≠ b)
    (hall : ∀ x < n, p.blockOf x = b → p.Marked x) : Splits n p.Marked p q splits := by
  have hne : ∀ s ∈ splits, s.1 ≠ b := fun s h => hs.fst_ne hmarked (fun x _ _ => hblock x) h
  constructor
  case size_eq => rw [← hsize]; exact hs.size_eq
  case nodup => exact hs.nodup
  case fresh => rw [← hsize]; exact hs.fresh
  case moved =>
    intro s h x hx
    rw [hs.moved s h x hx, hblock, hmarked x hx]
    have := hne s h
    grind
  case stays =>
    intro x hx h
    rw [← hblock x]
    refine hs.stays x hx fun s hmem => ?_
    rw [hblock, hmarked x hx]
    exact fun hm => h s hmem ⟨hm.1, hm.2.1⟩
  case mixed =>
    intro c hc
    by_cases hcb : c = b
    · subst hcb
      refine iff_of_false (fun ⟨f, hf⟩ => hne _ hf rfl) ?_
      rintro ⟨-, y, hy, hyc, hn⟩
      exact hn (hall y hy hyc)
    · exact hs.mixed_of_ne hmarked (hsize ▸ hc) hcb fun x _ => by rw [hblock]

theorem Splits.of_part (hs : Splits n p₁.Marked p₁ q splits) (hsize : p₁.blocks.size = p.blocks.size + 1)
    (hb : b < p.blocks.size) (hlt : ∀ x < n, p.blockOf x < p.blocks.size)
    (hblock : ∀ x < n, p₁.blockOf x =
      if p.blockOf x = b ∧ p.Marked x then p.blocks.size else p.blockOf x)
    (hmarked : ∀ x < n, p₁.Marked x ↔ p.Marked x ∧ p.blockOf x ≠ b)
    (hin : ∃ x < n, p.blockOf x = b ∧ p.Marked x)
    (hout : ∃ x < n, p.blockOf x = b ∧ ¬ p.Marked x) :
    Splits n p.Marked p q ((b, p.blocks.size) :: splits) := by
  have hsame : ∀ x < n, p₁.Marked x → p₁.blockOf x = p.blockOf x := by
    intro x hx hm
    rw [hblock x hx, if_neg fun h => ((hmarked x hx).mp hm).2 h.1]
  have hne : ∀ s ∈ splits, s.1 ≠ b := fun s h => hs.fst_ne hmarked hsame h
  have hold : ∀ s ∈ splits, s.1 < p.blocks.size := by
    intro s h
    obtain ⟨⟨x, hx, hxs, hm⟩, -⟩ := (hs.mixed s.1 (hs.fresh s h).1).mp ⟨s.2, h⟩
    rw [← hxs, hsame x hx hm]
    exact hlt x hx
  constructor
  case size_eq => rw [hs.size_eq, hsize, List.length_cons]; omega
  case nodup =>
    rw [List.map_cons]
    refine List.nodup_cons.mpr ⟨fun h => ?_, hs.nodup⟩
    obtain ⟨s, h, hsb⟩ := List.mem_map.mp h
    exact hne s h hsb
  case fresh =>
    have hsize' := hs.size_eq
    intro s h
    rcases List.mem_cons.mp h with rfl | h
    · exact ⟨hb, Nat.le_refl _, by dsimp only; omega⟩
    · have := hs.fresh s h
      exact ⟨hold s h, by omega, this.2.2⟩
  case moved =>
    intro s h x hx
    rcases List.mem_cons.mp h with rfl | h
    · by_cases hlater : ∃ s ∈ splits, p₁.blockOf x = s.1 ∧ p₁.Marked x
      · -- what moves later was not in `b`, and goes to a block with a greater number
        obtain ⟨s, hmem, hm⟩ := hlater
        have := (hs.moved s hmem x hx).mpr hm
        have := (hs.fresh s hmem).2.1
        have := ((hmarked x hx).mp hm.2).2
        grind
      · have := hs.stays x hx fun s hmem hm => hlater ⟨s, hmem, hm⟩
        have := hlt x hx
        have := hblock x hx
        grind
    · rw [hs.moved s h x hx, hblock x hx, hmarked x hx]
      have := hne s h
      have := hold s h
      grind
  case stays =>
    intro x hx h
    have hstay : p₁.blockOf x = p.blockOf x := by
      rw [hblock x hx, if_neg (h _ List.mem_cons_self)]
    rw [← hstay]
    refine hs.stays x hx fun s hmem hm => h s (List.mem_cons_of_mem _ hmem) ?_
    exact ⟨hstay ▸ hm.1, ((hmarked x hx).mp hm.2).1⟩
  case mixed =>
    intro c hc
    by_cases hcb : c = b
    · subst hcb
      exact iff_of_true ⟨_, List.mem_cons_self⟩ ⟨hin, hout⟩
    · have hblock' : ∀ x < n, p₁.blockOf x = c ↔ p.blockOf x = c := by
        intro x hx
        have := hblock x hx
        have := hlt x hx
        grind
      rw [← hs.mixed_of_ne hmarked (by omega) hcb hblock']
      refine exists_congr fun f => ?_
      rw [List.mem_cons, or_iff_right fun h => hcb (congrArg Prod.fst h)]

end

theorem splitBlocks_cons (p : Partition) (b : Nat) (bs : List Nat) :
    p.splitBlocks (b :: bs) =
      ((p.splitBlock b).1.toList.map (b, ·) ++ ((p.splitBlock b).2.splitBlocks bs).1,
        ((p.splitBlock b).2.splitBlocks bs).2) := rfl

theorem touched_splitBlock (p : Partition) (b : Nat) :
    (p.splitBlock b).2.touched = p.touched := by
  by_cases hw : (p.block b).mid = (p.block b).stop
  · rw [splitBlock_whole hw]
  · rw [splitBlock_part hw]

theorem Sound.splitBlocks (h : p.Sound n) (hl : p.Lists bs) :
    (p.splitBlocks bs).2.Sound n ∧ (p.splitBlocks bs).2.Lists [] ∧
      (p.splitBlocks bs).2.touched = p.touched ∧
      Splits n p.Marked p (p.splitBlocks bs).2 (p.splitBlocks bs).1 := by
  induction bs generalizing p with
  | nil => exact ⟨h, hl, rfl, splits_nil h hl⟩
  | cons b bs ih =>
    obtain ⟨hb, hm⟩ := (hl.mem_iff b).mp (by simp)
    obtain ⟨hnotin, hnodup⟩ := List.nodup_cons.mp hl.nodup
    have hmem : ∀ c, c ≠ b → (c ∈ bs ↔ c < p.blocks.size ∧ (p.block c).first < (p.block c).mid) :=
      fun c hc => by rw [← hl.mem_iff c, List.mem_cons, or_iff_right hc]
    have hplace : ∀ x, (p.splitBlock b).2.place x = p.place x := by
      intro x
      by_cases hw : (p.block b).mid = (p.block b).stop
      · rw [Partition.splitBlock_whole hw]; rfl
      · rw [Partition.splitBlock_part hw]; rfl
    rw [splitBlocks_cons]
    dsimp only
    by_cases hw : (p.block b).mid = (p.block b).stop
    · obtain ⟨hsound, hblock, hall⟩ := h.splitBlock_whole hb hw
      have hsplit := Partition.splitBlock_whole hw
      have hsize : (p.splitBlock b).2.blocks.size = p.blocks.size := by
        rw [hsplit]
        exact Array.size_setIfInBounds
      have howner : ∀ x, (p.splitBlock b).2.blockOf x = p.blockOf x := fun x => by rw [hsplit]; rfl
      have hlists : (p.splitBlock b).2.Lists bs := ⟨hnodup, fun c => by rw [hblock, hsize]; grind⟩
      have hmarked : ∀ x < n, (p.splitBlock b).2.Marked x ↔ p.Marked x ∧ p.blockOf x ≠ b := by
        intro x hx
        have := h.within_own hx
        rw [Marked, Marked, hplace, howner, hblock]
        grind
      obtain ⟨hsound', hlists', htouched, hsplits⟩ := ih hsound hlists
      refine ⟨hsound', hlists', htouched.trans (touched_splitBlock p b), ?_⟩
      rw [hsplit] at hsplits ⊢
      exact hsplits.of_whole (hsplit ▸ hsize) (hsplit ▸ howner) (hsplit ▸ hmarked) hall
    · obtain ⟨hsound, hblock, howner, hout⟩ := h.splitBlock_part hb hm hw
      have hsplit := Partition.splitBlock_part hw
      have hsize : (p.splitBlock b).2.blocks.size = p.blocks.size + 1 := by rw [hsplit]; simp
      have hlists : (p.splitBlock b).2.Lists bs := ⟨hnodup, fun c => by rw [hblock, hsize]; grind⟩
      have hmarked : ∀ x < n, (p.splitBlock b).2.Marked x ↔ p.Marked x ∧ p.blockOf x ≠ b := by
        intro x hx
        have := h.within_own hx
        have := h.blockOf_lt x hx
        simp only [Marked] at howner ⊢
        rw [hplace, howner x hx, hblock]
        grind
      obtain ⟨hsound', hlists', htouched, hsplits⟩ := ih hsound hlists
      refine ⟨hsound', hlists', htouched.trans (touched_splitBlock p b), ?_⟩
      have hfresh : (p.splitBlock b).1 = some p.blocks.size := by rw [hsplit]
      rw [hfresh]
      exact hsplits.of_part hsize hb h.blockOf_lt howner hmarked (h.exists_marked hb hm) hout

/-! ## Rounds -/

/-- Between rounds nothing is marked. -/
structure Clean (p : Partition) (n : Nat) : Prop extends Sound p n where
  lists : p.Lists p.touched.toList
  touched_eq : p.touched = #[]

theorem Clean.not_marked (h : p.Clean n) (hx : x < n) : ¬ p.Marked x := by
  intro hm
  have := h.mem_of_marked h.lists hx hm
  rw [h.touched_eq] at this
  cases this

theorem clean_whole (hn : 0 < n) : (whole n).Clean n := by
  have hblock : (whole n).block 0 = ⟨0, 0, n⟩ := by simp [block, whole, Nat.ne_of_gt hn]
  have hsize : (whole n).blocks.size = 1 := by simp [whole, Nat.ne_of_gt hn]
  have helement : ∀ i < n, (whole n).element i = i := by
    intro i hi; simp [element, whole, Array.getD_eq_getD_getElem?, hi]
  have hplace : ∀ x < n, (whole n).place x = x := by
    intro x hx; simp [place, whole, Array.getD_eq_getD_getElem?, hx]
  have howner : ∀ x < n, (whole n).blockOf x = 0 := by
    intro x hx; simp [blockOf, whole, Array.getD_eq_getD_getElem?, hx]
  have hzero : ∀ b < (whole n).blocks.size, b = 0 := fun b hb => by omega
  refine ⟨?_, ⟨List.nodup_nil, fun b => ?_⟩, rfl⟩
  · constructor
    case size_elements => simp [whole]
    case size_location => simp [whole]
    case size_owner => simp [whole]
    all_goals grind
  · refine iff_of_false (fun h => nomatch h) fun ⟨hb, hm⟩ => ?_
    rw [hzero b hb, hblock] at hm
    exact Nat.lt_irrefl 0 hm

/-- **A round is exact.** Marking some elements and splitting separates them from the others in each
block that has both, and leaves a clean partition. -/
theorem Clean.round (h : p.Clean n) (hxs : ∀ x ∈ xs, x < n) :
    (p.markAll xs).split.2.Clean n ∧
      Splits n (· ∈ xs) p (p.markAll xs).split.2 (p.markAll xs).split.1 := by
  obtain ⟨hsound, hlists, hsize, hblock, hmarked⟩ := h.toSound.markAll h.lists hxs
  have hreset : ({ p.markAll xs with touched := #[] } : Partition).Sound n := by
    obtain ⟨_, _, _, _, _, _, _, _, _, _, _, _, _⟩ := hsound
    constructor <;> assumption
  have hlisted : ({ p.markAll xs with touched := #[] } : Partition).Lists
      (p.markAll xs).touched.toList := ⟨hlists.nodup, hlists.mem_iff⟩
  obtain ⟨hsound', hlists', htouched, hsplits⟩ := hreset.splitBlocks hlisted
  have hinside : ∀ x < n, (p.markAll xs).Marked x ↔ x ∈ xs := fun x hx => by
    rw [hmarked x hx, or_iff_right (h.not_marked hx)]
  refine ⟨⟨hsound', ?_, htouched⟩, ?_⟩
  · rw [split, htouched]
    exact hlists'
  · have hinside' : ∀ x < n, ({ p.markAll xs with touched := #[] } : Partition).Marked x ↔ x ∈ xs :=
      hinside
    exact hsplits.congr hsize.symm (fun x _ => (hblock x).symm) fun x hx => (hinside' x hx).symm

end IntervalAutomata.Partition
