import IntervalAutomata.Exploration
import IntervalAutomata.Proofs.Ascending
import Mathlib.Data.Finset.Card
import Mathlib.Data.List.Nodup
import Std.Data.TreeMap.Lemmas

/-! # What an exploration finds

Noting gives every item one number and never changes a number that was given (`Indexed`). Everything
noted can be reached from the starts, and a row holds the numbers of what its item leads to (`Tracks`);
expanding one more item keeps this. An exploration that comes to an end has a row for every item, so
its items are closed under edges: they are exactly what can be reached (`Complete`). One that looks for
an item halts at the first that will do, and comes to its end only where none can be reached (`Halted`).
It is given up only when more items than the bound have been reached. -/

namespace IntervalAutomata

/-- What can be reached from the starts along edges. -/
inductive Reaches {α β : Type} (look : α → Row α β) (starts : List α) : α → Prop
  | start {x} : x ∈ starts → Reaches look starts x
  | edge {x d} : Reaches look starts x → d ∈ (look x).edges → Reaches look starts d.2

theorem Reaches.mono {α β : Type} {look look' : α → Row α β} {starts : List α} {x : α}
    (h : ∀ x, ∀ d ∈ (look x).edges, d ∈ (look' x).edges) (hx : Reaches look starts x) :
    Reaches look' starts x := by
  induction hx with
  | start hx => exact .start hx
  | edge _ hd ih => exact .edge ih (h _ _ hd)

/-- No more than `bound` items can be reached. -/
def Bounded {α β : Type} (look : α → Row α β) (starts : List α) (bound : Nat) : Prop :=
  ∀ xs : List α, xs.Nodup → (∀ x ∈ xs, Reaches look starts x) → xs.length ≤ bound

theorem bounded_of_mem {α β : Type} [DecidableEq α] {look : α → Row α β} {starts : List α}
    {s : Finset α} (h : ∀ x, Reaches look starts x → x ∈ s) : Bounded look starts s.card := by
  intro xs hnodup hxs
  rw [← List.toFinset_card_of_nodup hnodup]
  exact Finset.card_le_card fun x hx => h x (hxs x (List.mem_toFinset.mp hx))

/-- At most `n` numbers below `n` can be reached. -/
theorem bounded_of_lt {β : Type} {look : Nat → Row Nat β} {starts : List Nat} {n : Nat}
    (h : ∀ x, Reaches look starts x → x < n) : Bounded look starts n := by
  rw [← Finset.card_range n]
  exact bounded_of_mem fun x hx => Finset.mem_range.mpr (h x hx)

namespace Exploration

set_option linter.unusedSectionVars false

variable {α β : Type} {cmp : α → α → Ordering} [Std.TransCmp cmp] [Std.LawfulEqCmp cmp]
variable {e f : Exploration α β cmp} {x y : α} {look : α → Row α β} {starts : List α}

/-! ## Numbers -/

/-- Numbers are positions. -/
def Indexed (e : Exploration α β cmp) : Prop :=
  ∀ (x : α) (i : Nat), e.numbers[x]? = some i ↔ e.items[i]? = some x

/-- Every item of `e` has the same position in `f`. -/
def Grows (e f : Exploration α β cmp) : Prop :=
  ∀ (i : Nat) (x : α), e.items[i]? = some x → f.items[i]? = some x

theorem Grows.refl (e : Exploration α β cmp) : Grows e e := fun _ _ h => h

theorem Grows.trans {g : Exploration α β cmp} (h : Grows e f) (h' : Grows f g) : Grows e g :=
  fun i x hx => h' i x (h i x hx)

theorem Grows.mem (h : Grows e f) (hx : x ∈ e.items) : x ∈ f.items := by
  obtain ⟨i, hi⟩ := Array.mem_iff_getElem?.mp hx
  exact Array.mem_iff_getElem?.mpr ⟨i, h i x hi⟩

theorem Grows.size_le (h : Grows e f) : e.items.size ≤ f.items.size := by
  by_contra hlt
  have hi : f.items.size < e.items.size := Nat.lt_of_not_le hlt
  have := h _ _ (Array.getElem?_eq_getElem hi)
  rw [Array.getElem?_eq_none (Nat.le_refl _)] at this
  cases this

theorem Indexed.contains_iff (h : Indexed e) : e.numbers.contains x = true ↔ x ∈ e.items := by
  rw [Std.TreeMap.contains_eq_isSome_getElem?, Option.isSome_iff_exists, Array.mem_iff_getElem?]
  exact exists_congr fun i => h x i

theorem Indexed.getElem?_numberOf (h : Indexed e) (hx : x ∈ e.items) :
    e.items[e.numberOf x]? = some x := by
  obtain ⟨i, hi⟩ := Array.mem_iff_getElem?.mp hx
  rw [numberOf, Std.TreeMap.getD_eq_getD_getElem?, (h x i).mpr hi, Option.getD_some]
  exact hi

theorem Indexed.numberOf_eq (h : Indexed e) {i : Nat} (hx : e.items[i]? = some x) :
    e.numberOf x = i := by
  rw [numberOf, Std.TreeMap.getD_eq_getD_getElem?, (h x i).mpr hx, Option.getD_some]

theorem Indexed.index_unique (h : Indexed e) {i j : Nat} (hi : e.items[i]? = some x)
    (hj : e.items[j]? = some x) : i = j := by
  rw [← h.numberOf_eq hi, h.numberOf_eq hj]

theorem Indexed.numberOf_lt (h : Indexed e) (hx : x ∈ e.items) : e.numberOf x < e.items.size :=
  (Array.getElem?_eq_some_iff.mp (h.getElem?_numberOf hx)).1

theorem Indexed.nodup (h : Indexed e) : e.items.toList.Nodup := by
  rw [List.nodup_iff_getElem?_ne_getElem?]
  intro i j hij hj heq
  rw [Array.length_toList] at hj
  rw [Array.getElem?_toList, Array.getElem?_toList] at heq
  have hi := Array.getElem?_eq_getElem hj
  exact Nat.ne_of_lt hij (h.index_unique (heq.trans hi) hi)

theorem Grows.numberOf_eq (h : Grows e f) (he : Indexed e) (hf : Indexed f) (hx : x ∈ e.items) :
    f.numberOf x = e.numberOf x :=
  hf.numberOf_eq (h _ _ (he.getElem?_numberOf hx))

/-! ## Noting -/

theorem indexed_empty : Indexed (empty : Exploration α β cmp) := by
  intro x i
  simp [empty]

theorem Indexed.note (h : Indexed e) (x : α) : Indexed (e.note x) := by
  unfold Exploration.note
  split
  · exact h
  · rename_i hx
    rw [h.contains_iff] at hx
    intro y i
    dsimp only
    rw [Std.TreeMap.getElem?_insert, Array.getElem?_push]
    by_cases hxy : x = y
    · subst hxy
      rw [if_pos Std.ReflCmp.compare_self]
      constructor
      · intro hi
        rw [if_pos (Option.some.inj hi).symm]
      · intro hi
        split at hi
        · rename_i hi'; rw [hi']
        · exact absurd (Array.mem_iff_getElem?.mpr ⟨i, hi⟩) hx
    · rw [if_neg fun hcmp => hxy (Std.LawfulEqCmp.eq_of_compare hcmp), h y i]
      split
      · rename_i hi
        rw [hi, Array.getElem?_eq_none (Nat.le_refl _)]
        simp [hxy]
      · rfl

theorem grows_note (e : Exploration α β cmp) (x : α) : Grows e (e.note x) := by
  intro i y hy
  unfold note
  split
  · exact hy
  · dsimp only
    rw [Array.getElem?_push, if_neg]
    · exact hy
    · exact Nat.ne_of_lt (Array.getElem?_eq_some_iff.mp hy).1

theorem Indexed.mem_note (h : Indexed e) : y ∈ (e.note x).items ↔ y ∈ e.items ∨ y = x := by
  unfold Exploration.note
  split
  · rename_i hx
    rw [h.contains_iff] at hx
    exact ⟨.inl, fun hy => hy.elim id fun e => e ▸ hx⟩
  · simp

/-- Noting changes nothing, or the item is new and comes last. -/
theorem Indexed.note_cases (h : Indexed e) (x : α) :
    x ∈ e.items ∧ e.note x = e ∨
      x ∉ e.items ∧ (e.note x).items = e.items.push x ∧ (e.note x).numberOf x = e.items.size := by
  by_cases hold : x ∈ e.items
  · exact .inl ⟨hold, by rw [Exploration.note, if_pos (h.contains_iff.mpr hold)]⟩
  · have hitems : (e.note x).items = e.items.push x := by
      rw [Exploration.note, if_neg fun hc => hold (h.contains_iff.mp hc)]
    refine .inr ⟨hold, hitems, (h.note x).numberOf_eq ?_⟩
    rw [hitems, Array.getElem?_push_size]

@[simp] theorem rows_note (e : Exploration α β cmp) (x : α) : (e.note x).rows = e.rows := by
  unfold note
  split <;> rfl

theorem rows_foldl_note (xs : List α) (e : Exploration α β cmp) :
    (xs.foldl note e).rows = e.rows := by
  induction xs generalizing e with
  | nil => rfl
  | cons x xs ih => rw [List.foldl_cons, ih, rows_note]

theorem Indexed.foldl_note (h : Indexed e) (xs : List α) : Indexed (xs.foldl Exploration.note e) := by
  induction xs generalizing e with
  | nil => exact h
  | cons x xs ih => exact ih (h.note x)

theorem grows_foldl_note (xs : List α) (e : Exploration α β cmp) : Grows e (xs.foldl note e) := by
  induction xs generalizing e with
  | nil => exact .refl e
  | cons x xs ih => exact (grows_note e x).trans (ih _)

theorem Indexed.mem_foldl_note (h : Indexed e) (xs : List α) :
    y ∈ (xs.foldl Exploration.note e).items ↔ y ∈ e.items ∨ y ∈ xs := by
  induction xs generalizing e with
  | nil => simp
  | cons x xs ih => rw [List.foldl_cons, ih (h.note x), h.mem_note, List.mem_cons, or_assoc]

/-! ## Rows -/

/-- A row with its targets numbered. -/
def numbered (e : Exploration α β cmp) (row : Row α β) : Row Nat β :=
  ⟨row.accept, row.edges.map fun d => (d.1, e.numberOf d.2)⟩

theorem Grows.numbered_eq (h : Grows e f) (he : Indexed e) (hf : Indexed f) {row : Row α β}
    (hrow : ∀ d ∈ row.edges, d.2 ∈ e.items) : f.numbered row = e.numbered row := by
  rw [numbered, numbered]
  congr 1
  exact List.map_congr_left fun d hd => by rw [h.numberOf_eq he hf (hrow d hd)]

structure Tracks (look : α → Row α β) (starts : List α) (e : Exploration α β cmp) : Prop where
  indexed : Indexed e
  starts_mem : ∀ x ∈ starts, x ∈ e.items
  reached : ∀ x ∈ e.items, Reaches look starts x
  rows_le : e.rows.size ≤ e.items.size
  closed : ∀ (i : Nat) x, i < e.rows.size → e.items[i]? = some x →
    ∀ d ∈ (look x).edges, d.2 ∈ e.items
  row : ∀ (i : Nat) x, i < e.rows.size → e.items[i]? = some x → e.rows[i]? = some (e.numbered (look x))

theorem tracks_start (look : α → Row α β) (starts : List α) :
    Tracks look starts (starts.foldl note (empty : Exploration α β cmp)) where
  indexed := indexed_empty.foldl_note starts
  starts_mem x hx := (indexed_empty.mem_foldl_note starts).mpr (.inr hx)
  reached x hx := by
    rcases (indexed_empty.mem_foldl_note starts).mp hx with hx | hx
    · simp [empty] at hx
    · exact .start hx
  rows_le := by rw [rows_foldl_note]; exact Nat.zero_le _
  closed i x hi := by rw [rows_foldl_note] at hi; exact absurd hi (Nat.not_lt_zero i)
  row i x hi := by rw [rows_foldl_note] at hi; exact absurd hi (Nat.not_lt_zero i)

theorem foldl_note_edges (e : Exploration α β cmp) (row : Row α β) :
    row.edges.foldl (fun e d => e.note d.2) e = (row.edges.map (·.2)).foldl note e :=
  (List.foldl_map ..).symm

@[simp] theorem items_expand (e : Exploration α β cmp) (row : Row α β) :
    (e.expand row).items = ((row.edges.map (·.2)).foldl note e).items := by
  rw [expand, ← foldl_note_edges]

theorem numberOf_expand (e : Exploration α β cmp) (row : Row α β) :
    (e.expand row).numberOf = ((row.edges.map (·.2)).foldl note e).numberOf := by
  rw [expand, ← foldl_note_edges]; rfl

theorem rows_expand (e : Exploration α β cmp) (row : Row α β) :
    (e.expand row).rows = e.rows.push ((e.expand row).numbered row) := by
  rw [numbered, numberOf_expand, ← foldl_note_edges, expand]
  dsimp only
  rw [foldl_note_edges, rows_foldl_note]

theorem Indexed.expand (h : Indexed e) (row : Row α β) : Indexed (e.expand row) := by
  have := h.foldl_note (row.edges.map (·.2))
  rw [← foldl_note_edges] at this
  exact this

/-- Besides noting the targets an expansion only appends a row. -/
theorem foldl_note_grows_expand (e : Exploration α β cmp) (row : Row α β) :
    Grows ((row.edges.map (·.2)).foldl note e) (e.expand row) := by
  intro i x hx
  rw [items_expand]
  exact hx

theorem grows_expand (e : Exploration α β cmp) (row : Row α β) : Grows e (e.expand row) :=
  (grows_foldl_note _ e).trans (foldl_note_grows_expand e row)

/-- An item with a row is the one just expanded, or it had its row before. -/
theorem expand_cases (hx : e.next? = some x) (row : Row α β) {i : Nat}
    (hi : i < (e.expand row).rows.size) (hy : (e.expand row).items[i]? = some y) :
    i = e.rows.size ∧ y = x ∨ i < e.rows.size ∧ e.items[i]? = some y := by
  have hlt : e.rows.size < e.items.size := (Array.getElem?_eq_some_iff.mp hx).1
  rw [rows_expand, Array.size_push] at hi
  have hold : e.items[i]? = some y := by
    have hi' : i < e.items.size := by omega
    have := grows_expand e row i _ (Array.getElem?_eq_getElem hi')
    rw [hy] at this
    rw [Array.getElem?_eq_getElem hi', Option.some.inj this]
  rcases Nat.lt_or_eq_of_le (Nat.lt_succ_iff.mp hi) with hi | rfl
  · exact .inr ⟨hi, hold⟩
  · exact .inl ⟨rfl, Option.some.inj (hold.symm.trans hx)⟩

theorem Tracks.expand (h : Tracks look starts e) (hx : e.next? = some x) :
    Tracks look starts (e.expand (look x)) := by
  have hgrow := grows_expand e (look x)
  have hindexed := h.indexed.expand (look x)
  have hmem : ∀ {y}, y ∈ (e.expand (look x)).items ↔
      y ∈ e.items ∨ y ∈ (look x).edges.map (·.2) := by
    intro y
    rw [items_expand]
    exact h.indexed.mem_foldl_note _
  have hlt : e.rows.size < e.items.size := (Array.getElem?_eq_some_iff.mp hx).1
  have hnew : ∀ d ∈ (look x).edges, d.2 ∈ (e.expand (look x)).items :=
    fun d hd => hmem.mpr (.inr (List.mem_map_of_mem hd))
  refine ⟨hindexed, fun y hy => hgrow.mem (h.starts_mem y hy), ?_, ?_, ?_, ?_⟩
  · intro y hy
    rcases hmem.mp hy with hy | hy
    · exact h.reached y hy
    · obtain ⟨d, hd, rfl⟩ := List.mem_map.mp hy
      exact .edge (h.reached x (Array.mem_iff_getElem?.mpr ⟨_, hx⟩)) hd
  · rw [rows_expand, Array.size_push]
    exact Nat.le_trans hlt hgrow.size_le
  · intro i y hi hy
    rcases expand_cases hx _ hi hy with ⟨-, rfl⟩ | ⟨hi, hy⟩
    · exact hnew
    · exact fun d hd => hgrow.mem (h.closed i y hi hy d hd)
  · intro i y hi hy
    rw [rows_expand, Array.getElem?_push]
    rcases expand_cases hx _ hi hy with ⟨rfl, rfl⟩ | ⟨hi, hy⟩
    · rw [if_pos rfl]
    · rw [if_neg (Nat.ne_of_lt hi), h.row i y hi hy,
        hgrow.numbered_eq h.indexed hindexed (h.closed i y hi hy)]

/-! ## Runs -/

/-- A run ends within the bound, at an item that satisfies `stop` or with nothing left, or else it has
reached more items than the bound. -/
theorem run_spec (stop : α → Bool) (bound fuel : Nat) (h : Tracks look starts e)
    (hsize : e.items.size ≤ bound) (hfuel : e.rows.size + fuel = bound) :
    match run stop look bound fuel e with
    | some f => Tracks look starts f ∧ f.items.size ≤ bound ∧
        ∀ x, f.next? = some x → stop x = true
    | none => ∃ f : Exploration α β cmp, Tracks look starts f ∧ bound < f.items.size := by
  induction fuel generalizing e with
  | zero =>
    refine ⟨h, hsize, fun x hx => ?_⟩
    have := (Array.getElem?_eq_some_iff.mp hx).1
    omega
  | succ fuel ih =>
    unfold run
    cases hx : e.next? with
    | none => exact ⟨h, hsize, fun x hx' => by rw [hx] at hx'; cases hx'⟩
    | some x =>
      dsimp only
      by_cases hstop : stop x = true
      · rw [if_pos hstop]
        exact ⟨h, hsize, fun y hy => by rw [hx] at hy; exact Option.some.inj hy ▸ hstop⟩
      · rw [if_neg hstop]
        have hgrown := h.expand hx
        split
        · rename_i f hf
          split at hf
          · cases hf
          · rename_i hle
            have hrows : (e.expand (look x)).rows.size + fuel = bound := by
              rw [rows_expand, Array.size_push]; omega
            have := ih hgrown (Nat.le_of_not_lt hle) hrows
            rw [hf] at this
            exact this
        · rename_i hf
          split at hf
          · rename_i hlt
            exact ⟨_, hgrown, hlt⟩
          · rename_i hle
            have hrows : (e.expand (look x)).rows.size + fuel = bound := by
              rw [rows_expand, Array.size_push]; omega
            have := ih hgrown (Nat.le_of_not_lt hle) hrows
            rw [hf] at this
            exact this

/-- What every expansion preserves holds at the end of a run. -/
theorem run_preserves {stop : α → Bool} {bound fuel : Nat} (P : Exploration α β cmp → Prop)
    (hstep : ∀ e x, P e → e.next? = some x → stop x = false → P (e.expand (look x))) (h : P e)
    (hrun : run stop look bound fuel e = some f) : P f := by
  induction fuel generalizing e with
  | zero => exact Option.some.inj hrun ▸ h
  | succ fuel ih =>
    unfold run at hrun
    cases hx : e.next? with
    | none => rw [hx] at hrun; exact Option.some.inj hrun ▸ h
    | some x =>
      rw [hx] at hrun
      dsimp only at hrun
      split at hrun
      · exact Option.some.inj hrun ▸ h
      · rename_i hstop
        split at hrun
        · cases hrun
        · exact ih (hstep e x h hx (Bool.not_eq_true _ ▸ hstop)) hrun

/-- A look that carries a state of its own takes the same course as one that does not, as long as it sees
the same from every state it comes to. -/
theorem runCarrying_eq {σ : Type} {carry : σ → α → Row α β × σ} {good : σ → Prop} {s : σ}
    {bound fuel : Nat} (hcarry : ∀ s x, good s → Reaches look starts x →
      (carry s x).1 = look x ∧ good (carry s x).2)
    (h : Tracks look starts e) (hs : good s)
    (hrun : run (fun _ => false) look bound fuel e = some f) : runCarrying carry fuel s e = f := by
  induction fuel generalizing e s with
  | zero => exact Option.some.inj hrun
  | succ fuel ih =>
    unfold run at hrun
    unfold runCarrying
    cases hx : e.next? with
    | none =>
      rw [hx] at hrun
      exact Option.some.inj hrun
    | some x =>
      rw [hx] at hrun
      dsimp only at hrun ⊢
      rw [if_neg Bool.false_ne_true] at hrun
      obtain ⟨hrow, hnext⟩ := hcarry s x hs (h.reached x (Array.mem_iff_getElem?.mpr ⟨_, hx⟩))
      split at hrun
      · cases hrun
      · rw [hrow]
        exact ih (h.expand hx) hnext hrun

/-- An exploration that has come to the first item that satisfies `stop`, or to its end. -/
structure Halted (look : α → Row α β) (starts : List α) (stop : α → Bool)
    (e : Exploration α β cmp) : Prop extends Tracks look starts e where
  stops : ∀ x, e.next? = some x → stop x = true
  passed : ∀ (i : Nat) x, i < e.rows.size → e.items[i]? = some x → stop x = false

/-- Nothing is left to expand. -/
structure Complete (look : α → Row α β) (starts : List α) (e : Exploration α β cmp) : Prop where
  indexed : Indexed e
  mem_items : ∀ x, x ∈ e.items ↔ Reaches look starts x
  rows_size : e.rows.size = e.items.size
  row : ∀ (i : Nat) x, e.items[i]? = some x → e.rows[i]? = some (e.numbered (look x))

theorem Tracks.complete (h : Tracks look starts e) (hnext : e.next? = none) :
    Complete look starts e := by
  have hsize : e.items.size ≤ e.rows.size := Array.getElem?_eq_none_iff.mp hnext
  have hlt : ∀ {i x}, e.items[i]? = some x → i < e.rows.size := fun hx =>
    Nat.lt_of_lt_of_le (Array.getElem?_eq_some_iff.mp hx).1 hsize
  refine ⟨h.indexed, fun x => ⟨h.reached x, fun hx => ?_⟩, Nat.le_antisymm h.rows_le hsize,
    fun i x hx => h.row i x (hlt hx) hx⟩
  induction hx with
  | start hx => exact h.starts_mem _ hx
  | edge _ hd ih =>
    obtain ⟨i, hi⟩ := Array.mem_iff_getElem?.mp ih
    exact h.closed i _ (hlt hi) hi _ hd

/-- It comes to its end exactly where nothing that can be reached satisfies `stop`. -/
theorem Halted.next?_eq_none_iff {stop : α → Bool} (h : Halted look starts stop e) :
    e.next? = none ↔ ∀ x, Reaches look starts x → stop x = false := by
  constructor
  · intro hnext x hx
    have hcomplete := h.toTracks.complete hnext
    obtain ⟨i, hi⟩ := Array.mem_iff_getElem?.mp ((hcomplete.mem_items x).mpr hx)
    have hlt := (Array.getElem?_eq_some_iff.mp hi).1
    exact h.passed i x (hcomplete.rows_size ▸ hlt) hi
  · intro hnone
    by_contra hnext
    obtain ⟨x, hx⟩ := Option.ne_none_iff_exists'.mp hnext
    have hpass := hnone x (h.reached x (Array.mem_iff_getElem?.mpr ⟨_, hx⟩))
    rw [h.stops x hx] at hpass
    cases hpass

theorem Complete.mem_of_edge (h : Complete look starts e) (hx : x ∈ e.items) {d : β × α}
    (hd : d ∈ (look x).edges) : d.2 ∈ e.items :=
  (h.mem_items _).mpr (.edge ((h.mem_items x).mp hx) hd)

theorem Complete.next?_eq_none (h : Complete look starts e) : e.next? = none := by
  rw [next?, h.rows_size]
  exact Array.getElem?_eq_none (Nat.le_refl _)

theorem Indexed.size_le_of_bounded (h : Indexed e) (hreached : ∀ x ∈ e.items, Reaches look starts x)
    {bound : Nat} (hbound : Bounded look starts bound) : e.items.size ≤ bound := by
  rw [← Array.length_toList]
  exact hbound _ h.nodup fun x hx => hreached x (Array.mem_toList_iff.mp hx)

end Exploration

open Exploration

section

variable {α β : Type} {cmp : α → α → Ordering} [Std.TransCmp cmp] [Std.LawfulEqCmp cmp]
variable {look : α → Row α β} {starts : List α} {bound : Nat} {e : Exploration α β cmp}

theorem explore?_complete (hstart : (starts.foldl note (empty : Exploration α β cmp)).items.size ≤ bound)
    (h : explore? cmp bound look starts = some e) :
    Complete look starts e ∧ e.items.size ≤ bound := by
  have htracks : Tracks look starts (starts.foldl note (empty : Exploration α β cmp)) :=
    tracks_start look starts
  have hrun := run_spec (fun _ => false) bound bound htracks hstart
    (by rw [rows_foldl_note]; exact Nat.zero_add bound)
  rw [explore?, exploreUntil?] at h
  rw [h] at hrun
  obtain ⟨htracks, hsize, hnext⟩ := hrun
  refine ⟨htracks.complete ?_, hsize⟩
  cases hx : e.next? with
  | none => rfl
  | some x => exact absurd (hnext x hx) Bool.false_ne_true

theorem size_starts_le (cmp : α → α → Ordering) [Std.TransCmp cmp] [Std.LawfulEqCmp cmp]
    (hbound : Bounded look starts bound) :
    (starts.foldl note (empty : Exploration α β cmp)).items.size ≤ bound :=
  have htracks := tracks_start look starts
  htracks.indexed.size_le_of_bounded htracks.reached hbound

/-- Within a bound that suffices an exploration halts. -/
theorem exists_exploreUntil? (cmp : α → α → Ordering) [Std.TransCmp cmp] [Std.LawfulEqCmp cmp]
    (stop : α → Bool) (hbound : Bounded look starts bound) :
    ∃ e, exploreUntil? cmp bound stop look starts = some e ∧ Halted look starts stop e := by
  have htracks : Tracks look starts (starts.foldl note (empty : Exploration α β cmp)) :=
    tracks_start look starts
  have hspec := run_spec stop bound bound htracks (size_starts_le cmp hbound)
    (by rw [rows_foldl_note]; exact Nat.zero_add bound)
  unfold exploreUntil?
  cases hrun : run stop look bound bound (starts.foldl note (empty : Exploration α β cmp)) with
  | none =>
    rw [hrun] at hspec
    obtain ⟨f, htracks, hsize⟩ := hspec
    have hle := htracks.indexed.size_le_of_bounded htracks.reached hbound
    exact absurd hle (Nat.not_le_of_lt hsize)
  | some e =>
    rw [hrun] at hspec
    obtain ⟨htracks, -, hstops⟩ := hspec
    refine ⟨e, rfl, htracks, hstops, ?_⟩
    refine run_preserves (fun e => ∀ (i : Nat) x, i < e.rows.size → e.items[i]? = some x →
      stop x = false) ?_ ?_ hrun
    · intro e x hpassed hx hstop i y hi hy
      obtain ⟨-, rfl⟩ | ⟨hi, hy⟩ := expand_cases hx _ hi hy
      · exact hstop
      · exact hpassed i y hi hy
    · intro i x hi
      rw [rows_foldl_note] at hi
      exact absurd hi (Nat.not_lt_zero i)

/-- An exploration is given up only when too much can be reached. -/
theorem not_bounded_of_explore?_eq_none (h : explore? cmp bound look starts = none) :
    ¬ Bounded look starts bound := by
  intro hbound
  obtain ⟨e, hsome, -⟩ := exists_exploreUntil? cmp (fun _ => false) hbound
  rw [explore?, hsome] at h
  cases h

/-- Within a bound that suffices an exploration comes to its end. -/
theorem exploreAll_eq_some (cmp : α → α → Ordering) [Std.TransCmp cmp] [Std.LawfulEqCmp cmp]
    (hbound : Bounded look starts bound) :
    explore? cmp bound look starts = some (exploreAll cmp bound look starts) := by
  unfold exploreAll
  cases h : explore? cmp bound look starts with
  | none => exact absurd hbound (not_bounded_of_explore?_eq_none h)
  | some e => rfl

theorem exploreCarrying_eq {σ : Type} {carry : σ → α → Row α β × σ} {s : σ} {x₀ : α} (good : σ → Prop)
    (hbound : Bounded look [x₀] bound) (hcarry : ∀ s x, good s → Reaches look [x₀] x →
      (carry s x).1 = look x ∧ good (carry s x).2) (hs : good s) :
    exploreCarrying cmp carry bound s x₀ = exploreAll cmp bound look [x₀] :=
  runCarrying_eq hcarry (tracks_start look [x₀]) hs (exploreAll_eq_some cmp hbound)

theorem exploreAll_complete (hbound : Bounded look starts bound) :
    Complete look starts (exploreAll cmp bound look starts) :=
  (explore?_complete (size_starts_le cmp hbound) (exploreAll_eq_some cmp hbound)).1

end

end IntervalAutomata
