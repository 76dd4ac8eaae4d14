import IntervalAutomata.Proofs.Combinators

/-! # Repetition in place

A builder that owns its graph changes it step by step, and what it has done when it fails stays done.
Repetition makes all its checks before it takes the first copy, so in place it either fails and leaves
the graph as it was, or leaves the graph that the plain function returns. In place each copy is
collected anew, from a graph that has earlier copies behind the fragment; but a search that starts at
the fragment never gets there. -/

namespace IntervalAutomata

/-- A construction on a graph of its own. -/
abbrev Edit := ExceptT BuildError (StateT Graph (Journal Event))

namespace Edit

variable {α β : Type} {g : Graph}

/-- What a construction returns on a graph, and the graph that it leaves, also when it fails. -/
def on (e : Edit α) (g : Graph) : Journal Event (Except BuildError α × Graph) := e.run.run g

/-- A construction that does not touch the graph. -/
def check (b : Build α) : Edit α := ExceptT.mk fun g => (·, g) <$> b.run

/-- A combinator, which cannot fail. -/
def apply (combine : Graph → α × Graph) : Edit α := modifyGet combine

/-- The graph is replaced on success alone. -/
def settle (g : Graph) : Except BuildError (α × Graph) → Except BuildError α × Graph
  | .ok (x, g') => (.ok x, g')
  | .error err => (.error err, g)

theorem on_apply_bind (combine : Graph → α × Graph) (k : α → Edit β) :
    (apply combine >>= k).on g = (k (combine g).1).on (combine g).2 := rfl

theorem on_get_bind (k : Graph → Edit β) : (get >>= k).on g = (k g).on g := rfl

/-- What cannot fail and reports nothing hands its result and its graph on. -/
theorem on_bind_of_eq {e : Edit α} {x : α} {g' : Graph} (h : e.on g = pure (.ok x, g'))
    (k : α → Edit β) : (e >>= k).on g = (k x).on g' := by
  have hbind : (e >>= k).on g = e.on g >>= fun r => (ExceptT.bindCont k r.1).run r.2 := rfl
  rw [hbind, h, pure_bind]
  rfl

/-- Where the rest settles behind every check that passes, the whole settles. -/
theorem on_check_bind {b : Build α} {k : α → Edit β} {k' : α → Build (β × Graph)}
    (h : ∀ x, (k x).on g = settle g <$> (k' x).run) :
    (check b >>= k).on g = settle g <$> (b >>= k').run := by
  have hcheck : (check b >>= k).on g =
      ((·, g) <$> b.run) >>= fun r => (ExceptT.bindCont k r.1).run r.2 := rfl
  have hrun : (b >>= k').run = b.run >>= fun r => ExceptT.bindCont k' r := rfl
  rw [hcheck, bind_map_left, hrun, map_bind]
  refine bind_congr fun r => ?_
  cases r with
  | error err => rfl
  | ok x => exact h x

end Edit

open Edit

namespace Graph

variable {g : Graph} {f : Fragment} {limits : Limits} {min : Nat} {max : Option Nat}

/-! ## Copying in place -/

/-- One copy after the other, each collected anew. -/
def duplicates (f : Fragment) : (count : Nat) → Edit (List Fragment)
  | 0 => return []
  | count + 1 => do
    let copy ← apply (·.duplicate f)
    let rest ← duplicates f count
    return copy :: rest

/-- Repetition of a fragment of the graph, which is wired in place. -/
def repeatInPlace (limits : Limits) (f : Fragment) (min : Nat) (max : Option Nat) : Edit Fragment := do
  if max = some 0 then return ← apply emptyString
  let total := max.getD (min + 1)
  check (checkIds total)
  let extent := (← get).extent f
  check (checkIds (total * (extent.nodes + 2) + (← get).size))
  check (limits.checkProjected (total * extent.targets + 1))
  let more ← duplicates f (total - 1)
  let all := f :: more
  match max with
  | some _ =>
    let tail ← apply (·.nested (all.drop min))
    apply (·.sequence (all.take min ++ tail))
  | none =>
    let tail ← apply (·.zeroOrMore (all.getLastD f))
    apply (·.sequence (all.take min ++ [tail]))

/-- Copies behind a fragment are not collected with it. -/
theorem InRange.collect_appendCopy (hg : g.InRange) (hf : g.Has f) (order : List Nat) :
    (g.appendCopy order).collect f = g.collect f :=
  search_wires_congr (show g.Closed {n | n < g.size} from hg) (fun _ hn => hn) (by simp)
    (fun _ hn => node_appendCopy_of_lt hn) (by simp [hf.entry_lt, hf.exit_lt])

theorem InRange.appendCopy (hg : g.InRange) (hf : g.Has f) : (g.appendCopy (g.collect f)).InRange := by
  have hrealizes := hg.realizes_nodesOf hf
  have hcopy := (hrealizes.appendCopy hrealizes.collect).realizes
  intro n hn m hm
  rcases Nat.lt_or_ge n g.size with hlt | hge
  · rw [wires_congr (node_appendCopy_of_lt hlt)] at hm
    exact Nat.lt_of_lt_of_le (hg n hlt m hm) (by simp)
  · exact hcopy.lt m (hcopy.closed n (.inr ⟨hge, hn⟩) m hm)

theorem Has.appendCopy (hf : g.Has f) (order : List Nat) : (g.appendCopy order).Has f :=
  ⟨Nat.lt_of_lt_of_le hf.entry_lt (by simp), Nat.lt_of_lt_of_le hf.exit_lt (by simp)⟩

theorem on_duplicates (hg : g.InRange) (hf : g.Has f) (count : Nat) :
    (duplicates f count).on g = pure (.ok (g.appendCopies (g.collect f) f count).1,
      (g.appendCopies (g.collect f) f count).2) := by
  induction count generalizing g with
  | zero => rfl
  | succ count ih =>
    have hrest := ih (hg.appendCopy hf) (hf.appendCopy (g.collect f))
    rw [hg.collect_appendCopy hf] at hrest
    rw [duplicates, on_apply_bind]
    exact on_bind_of_eq hrest _

/-- **In place, repetition does what the plain function says or leaves the graph alone.** -/
theorem InRange.on_repeatInPlace (hg : g.InRange) (hf : g.Has f) :
    (repeatInPlace limits f min max).on g = settle g <$> (g.repetition limits f min max).run := by
  unfold repeatInPlace repetition
  by_cases hzero : max = some 0
  · rw [if_pos hzero, if_pos hzero]
    rfl
  · rw [if_neg hzero, if_neg hzero]
    refine on_check_bind fun _ => ?_
    rw [on_get_bind, on_get_bind]
    refine on_check_bind fun _ => on_check_bind fun _ => ?_
    dsimp only
    rw [on_bind_of_eq (on_duplicates hg hf _)]
    cases max <;> rfl

end Graph

end IntervalAutomata
