import IntervalAutomata.Proofs.BreadthFirst
import IntervalAutomata.Proofs.Build

/-! # Counting what an exploration finds

An exploration under a ceiling counts its items one by one, as they are found, and stops in the middle of
a row when there are too many. Until then it takes the course that it takes without a ceiling. So the
ceiling lets the whole exploration through unchanged or refuses it, and which of the two depends on no
more than how many items there are in the end (`capped`). -/

namespace IntervalAutomata

open Exploration Build

namespace Limits

variable {limits : Limits} {k l n : Nat} {α β : Type}

/-- No ceiling is below the count. The first item is free. -/
def Fits (limits : Limits) (count : Nat) : Prop :=
  ∀ n, limits.maxStates = some n → count ≤ Nat.max n 1

/-- `b`, unless the ceiling is below the count. -/
def capped (limits : Limits) (count : Nat) (b : Build α) : Build α :=
  match limits.maxStates with
  | none => b
  | some n => if count ≤ Nat.max n 1 then b else exceedsStates n

theorem Fits.capped_eq (h : limits.Fits k) (b : Build α) : limits.capped k b = b := by
  rw [Limits.capped]
  split
  · rfl
  · rename_i n hn
    exact if_pos (h n hn)

theorem capped_of_lt (hn : limits.maxStates = some n) (hlt : Nat.max n 1 < k) (b : Build α) :
    limits.capped k b = exceedsStates n := by
  rw [Limits.capped, hn]
  exact if_neg (Nat.not_le_of_lt hlt)

theorem fits_or_lt (limits : Limits) (k : Nat) :
    limits.Fits k ∨ ∃ n, limits.maxStates = some n ∧ Nat.max n 1 < k := by
  cases hmax : limits.maxStates with
  | none => exact .inl fun n hn => nomatch hmax.symm.trans hn
  | some n =>
    rcases Nat.lt_or_ge (Nat.max n 1) k with hlt | hle
    · exact .inr ⟨n, rfl, hlt⟩
    · exact .inl fun n' hn' => Option.some.inj (hmax.symm.trans hn') ▸ hle

theorem checkStates_eq (h : 2 ≤ k) : limits.checkStates k = limits.capped k (pure ()) := by
  rw [checkStates, capped]
  cases limits.maxStates with
  | none => rfl
  | some n =>
    have hiff : k > n ↔ ¬ k ≤ Nat.max n 1 := by
      rw [Nat.max_eq_max]
      omega
    dsimp only
    rw [if_congr hiff rfl rfl, ite_not]

/-- A count that is too high stays too high when the counting goes on. -/
theorem capped_bind {x : α} {f : α → Build β} {b : Build β} (hle : k ≤ l)
    (hf : limits.Fits k → f x = limits.capped l b) :
    (limits.capped k (pure x) >>= f) = limits.capped l b := by
  obtain hfits | ⟨n, hn, hlt⟩ := limits.fits_or_lt k
  · rw [hfits.capped_eq, pure_bind, hf hfits]
  · rw [capped_of_lt hn hlt, capped_of_lt hn (hlt.trans_le hle), exceedsStates_bind]

end Limits

section

variable {α β : Type} {cmp : α → α → Ordering} [Std.TransCmp cmp] [Std.LawfulEqCmp cmp]
variable {look : α → Row α β} {x : α} {all bound fuel : Nat} {e f : Exploration α β cmp}
variable {limits : Limits}

/-! ## Item by item -/

omit [Std.TransCmp cmp] [Std.LawfulEqCmp cmp] in
/-- Where an item is new there are two of them at least, and that is when they are counted. -/
theorem Limits.noteCounted_eq (hpos : 1 ≤ e.items.size) (hfits : limits.Fits e.items.size) (x : α) :
    limits.noteCounted e x = limits.capped (e.note x).items.size (pure (e.note x)) := by
  rw [Limits.noteCounted]
  split
  · rename_i hold
    have hsame : e.note x = e := by rw [Exploration.note, if_pos hold]
    rw [hsame, hfits.capped_eq]
  · rename_i hnew
    have hsize : (e.note x).items.size = e.items.size + 1 := by
      rw [Exploration.note, if_neg hnew]
      exact Array.size_push ..
    rw [checkStates_eq (by omega)]
    exact capped_bind (Nat.le_refl _) fun hfits => (hfits.capped_eq _).symm

theorem Limits.foldlM_noteCounted_eq {edges : List (β × α)} (hpos : 1 ≤ e.items.size)
    (hfits : limits.Fits e.items.size) :
    edges.foldlM (fun e edge => limits.noteCounted e edge.2) e =
      limits.capped (edges.foldl (fun e edge => e.note edge.2) e).items.size
        (pure (edges.foldl (fun e edge => e.note edge.2) e)) := by
  induction edges generalizing e with
  | nil => exact (hfits.capped_eq _).symm
  | cons edge edges ih =>
    have hnote := (grows_note e edge.2).size_le
    have hrest := (grows_foldl_note (edges.map (·.2)) (e.note edge.2)).size_le
    rw [List.foldl_map] at hrest
    rw [List.foldlM_cons, List.foldl_cons, noteCounted_eq hpos hfits]
    exact capped_bind hrest fun hfits => ih (hpos.trans hnote) hfits

theorem Limits.expandCounted_eq (hpos : 1 ≤ e.items.size) (hfits : limits.Fits e.items.size)
    (row : Row α β) :
    limits.expandCounted e row = limits.capped (e.expand row).items.size (pure (e.expand row)) := by
  rw [Limits.expandCounted, foldlM_noteCounted_eq hpos hfits]
  exact capped_bind (Nat.le_refl _) fun hfits => (hfits.capped_eq _).symm

/-- Counting on the way comes to the same as counting in the end. -/
theorem Limits.runCounted_eq (hrun : run (fun _ => false) look bound fuel e = some f)
    (hpos : 1 ≤ e.items.size) (hfits : limits.Fits e.items.size) :
    limits.runCounted look fuel e = limits.capped f.items.size (pure f) := by
  induction fuel generalizing e with
  | zero =>
    obtain rfl := Option.some.inj hrun
    exact (hfits.capped_eq _).symm
  | succ fuel ih =>
    unfold run at hrun
    unfold runCounted
    cases hx : e.next? with
    | none =>
      rw [hx] at hrun
      obtain rfl := Option.some.inj hrun
      exact (hfits.capped_eq _).symm
    | some x =>
      rw [hx] at hrun
      dsimp only at hrun ⊢
      rw [if_neg Bool.false_ne_true] at hrun
      split at hrun
      · cases hrun
      have hgrown : (e.expand (look x)).items.size ≤ f.items.size :=
        run_preserves (fun g => (e.expand (look x)).items.size ≤ g.items.size)
          (fun g y hle _ _ => hle.trans (grows_expand g (look y)).size_le) (Nat.le_refl _) hrun
      rw [expandCounted_eq hpos hfits]
      exact capped_bind hgrown fun hfits =>
        ih hrun (hpos.trans (grows_expand e (look x)).size_le) hfits

/-! ## Explorations -/

/-- **A ceiling does nothing but refuse.** The whole exploration is returned, unless it has more items
than the ceiling admits. -/
theorem Limits.explore_eq (hall : Bounded look [x] all) : limits.explore cmp all look x =
    limits.capped (exploreAll cmp all look [x]).items.size (pure (exploreAll cmp all look [x])) := by
  have hstart : (Exploration.empty.note x : Exploration α β cmp).items.size = 1 :=
    congrArg Array.size (items_start x)
  refine runCounted_eq (exploreAll_eq_some cmp hall) hstart.ge fun n _ => ?_
  exact hstart.le.trans (Nat.le_max_right n 1)

theorem Limits.outcome_explore (hall : Bounded look [x] all) :
    (limits.explore cmp all look x).outcome =
      match limits.maxStates with
      | none => .ok (exploreAll cmp all look [x])
      | some n =>
        if (exploreAll cmp all look [x]).items.size ≤ Nat.max n 1 then .ok (exploreAll cmp all look [x])
        else .error (.stateLimit n) := by
  rw [explore_eq hall, capped]
  cases limits.maxStates with
  | none => rfl
  | some n =>
    dsimp only
    split <;> rfl

/-- An exploration that the ceiling lets through is the whole one. -/
theorem Limits.exploreAll_of_explore (hall : Bounded look [x] all)
    (h : (limits.explore cmp all look x).outcome = .ok e) : exploreAll cmp all look [x] = e := by
  rw [outcome_explore hall] at h
  split at h
  · exact Except.ok.inj h
  · split at h
    · exact Except.ok.inj h
    · cases h

theorem Limits.explored_of_explore (hall : Bounded look [x] all)
    (h : (limits.explore cmp all look x).outcome = .ok e) : Explored look x e :=
  exploreAll_of_explore hall h ▸ exploreAll_explored hall

omit [Std.TransCmp cmp] [Std.LawfulEqCmp cmp] in
theorem Limits.explore_failsWith {errors : BuildError → Prop}
    (hstates : ∀ n, limits.maxStates = some n → errors (.stateLimit n)) :
    (limits.explore cmp all look x).FailsWith errors := by
  have hnote : ∀ (e : Exploration α β cmp) x, (limits.noteCounted e x).FailsWith errors := by
    intro e x
    unfold noteCounted
    split
    · exact failsWith_pure _
    · exact (checkStates_failsWith hstates).bind fun _ _ => failsWith_pure _
  have hexpand : ∀ (e : Exploration α β cmp) row, (limits.expandCounted e row).FailsWith errors := by
    intro e row
    refine FailsWith.bind ?_ fun _ _ => failsWith_pure _
    induction row.edges generalizing e with
    | nil => exact failsWith_pure _
    | cons edge edges ih =>
      rw [List.foldlM_cons]
      exact (hnote e edge.2).bind fun f _ => ih f
  unfold explore
  generalize Exploration.empty.note x = e
  induction all generalizing e with
  | zero => exact failsWith_pure _
  | succ fuel ih =>
    unfold runCounted
    split
    · exact failsWith_pure _
    · exact (hexpand e _).bind fun f _ => ih f

omit [Std.TransCmp cmp] [Std.LawfulEqCmp cmp] in
/-- Without a ceiling nothing is refused, whether or not the exploration has come to its end. -/
theorem Limits.explore_unlimited (h : limits.maxStates = none) :
    ∃ e, (limits.explore cmp all look x).outcome = .ok e := by
  have hnever : (limits.explore cmp all look x).FailsWith fun _ => False :=
    explore_failsWith fun n hn => nomatch h.symm.trans hn
  cases houtcome : (limits.explore cmp all look x).outcome with
  | error err => exact (hnever err houtcome).elim
  | ok e => exact ⟨e, rfl⟩

end

end IntervalAutomata
