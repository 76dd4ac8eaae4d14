import Mathlib.Algebra.BigOperators.Fin

/-!
# Entries of arrays

What is read after entries of an array have been overwritten, one of them or all that a list names.
Numbers outside the array are passed over. A sum over the entries is one over their numbers. A loop over
numbered entries keeps what each of its rounds keeps.
-/

namespace IntervalAutomata

variable {α : Type}

theorem getD_setIfInBounds (xs : Array α) (i j : Nat) (v d : α) :
    (xs.setIfInBounds i v).getD j d = if i = j ∧ j < xs.size then v else xs.getD j d := by
  simp only [Array.getD_eq_getD_getElem?, Array.getElem?_setIfInBounds]
  by_cases hij : i = j
  · subst hij
    by_cases hi : i < xs.size <;> simp [hi]
  · simp [hij]

theorem getD_foldl_setIfInBounds (xs : Array α) (entries : List Nat) (v : α) (j : Nat) (d : α) :
    (entries.foldl (fun xs i => xs.setIfInBounds i v) xs).getD j d =
      if j ∈ entries ∧ j < xs.size then v else xs.getD j d := by
  induction entries generalizing xs with
  | nil => simp
  | cons i entries ih =>
    rw [List.foldl_cons, ih, Array.size_setIfInBounds, getD_setIfInBounds]
    grind

theorem size_foldl_setIfInBounds (xs : Array α) (entries : List Nat) (v : α) :
    (entries.foldl (fun xs i => xs.setIfInBounds i v) xs).size = xs.size := by
  induction entries generalizing xs with
  | nil => rfl
  | cons i entries ih => rw [List.foldl_cons, ih, Array.size_setIfInBounds]

theorem getD_replicate (n i : Nat) (d : α) : (Array.replicate n d).getD i d = d := by
  rw [Array.getD_eq_getD_getElem?, Array.getElem?_replicate]
  split <;> rfl

theorem getElem?_push_of_some {xs : Array α} {i : Nat} {x : α} (h : xs[i]? = some x) (y : α) :
    (xs.push y)[i]? = some x := by
  rw [Array.getElem?_push, if_neg (Nat.ne_of_lt (Array.getElem?_eq_some_iff.mp h).1), h]

theorem modify_push {xs : Array α} {i : Nat} (h : i < xs.size) (f : α → α) (x : α) :
    (xs.push x).modify i f = (xs.modify i f).push x := by
  refine Array.ext (by simp) fun j hj _ => ?_
  rw [Array.getElem_modify, Array.getElem_push, Array.getElem_push]
  simp only [Array.size_modify, Array.getElem_modify]
  by_cases hj' : j < xs.size
  · simp only [dif_pos hj']
  · rw [if_neg (by omega), dif_neg hj', dif_neg hj']

theorem sum_map_toList (xs : Array α) (f : α → Nat) (d : α) :
    (xs.toList.map f).sum = ∑ i ∈ Finset.range xs.size, f (xs.getD i d) := by
  rw [Finset.sum_range, ← Fin.sum_univ_getElem]
  refine Fintype.sum_equiv (finCongr (by simp)) _ _ fun i => ?_
  have hi : i.val < xs.size := by simpa using i.isLt
  simp [Array.getD_eq_getD_getElem?, Array.getElem?_eq_getElem hi]

/-- The entry behind those of `xs` is the one with their number. -/
theorem modify_append_cons (f : α → α) (xs ys : List α) (x : α) :
    (xs ++ x :: ys).modify xs.length f = xs ++ f x :: ys := by
  simp [List.modify_eq_take_drop]

/-- What holds of the entries a loop has passed and of what it has made of them, to the last entry. -/
theorem foldl_zipIdx_induction {σ : Type} {f : σ → α × Nat → σ} {xs : List α} {s : σ}
    (P : List α → σ → Prop) (hstart : P [] s)
    (hstep : ∀ {done x rest s}, xs = done ++ x :: rest → P done s →
      P (done ++ [x]) (f s (x, done.length))) : P xs (xs.zipIdx.foldl f s) := by
  suffices h : ∀ rest done s, xs = done ++ rest → P done s →
      P xs ((rest.zipIdx done.length).foldl f s) from h xs [] s rfl hstart
  intro rest
  induction rest with
  | nil =>
    intro done s hxs h
    rw [List.append_nil] at hxs
    exact hxs ▸ h
  | cons x rest ih =>
    intro done s hxs h
    have hnext := ih (done ++ [x]) (f s (x, done.length)) (by simp [hxs]) (hstep hxs h)
    rwa [List.length_append, List.length_singleton] at hnext

end IntervalAutomata
