import IntervalAutomata.Proofs.Compilation

/-! # How compilations fail

Depth and bounds are checked for the whole pattern before anything is built, so a pattern that is too
deep fails for that reason whatever else is wrong with it, and after that the first inverted repetition
decides. An operand is checked again when it is compiled, and passes: a part is less deep, and its bounds
are among those of the whole. Boolean parts ask for deterministic operands and get minimized
ones. So what can still be refused is a number of states, by the ceiling or by the numbers there are,
and the latter only where something is repeated. -/

namespace IntervalAutomata

/-! ## Parts of patterns -/

namespace Pattern

variable {p q : Pattern} {path : List Pattern} {n min max : Nat}

/-- The pattern and all its parts, parents before children and left before right. -/
def preorder : Pattern → List Pattern
  | p@(alternation left right) | p@(concatenation left right) | p@(intersection left right) =>
    p :: (left.preorder ++ right.preorder)
  | p@(star inner) | p@(plus inner) | p@(repeated inner _ _) | p@(complement inner) =>
    p :: inner.preorder
  | p@(char _) | p@(range _ _) | p@anyChar | p@empty | p@emptyString => [p]

theorem preorder_eq (p : Pattern) : p.preorder = p :: p.children.flatMap preorder := by
  cases p <;> simp [preorder, children]

theorem mem_preorder_self (p : Pattern) : p ∈ p.preorder := by
  rw [preorder_eq]
  exact .head _

theorem preorder_subset_of_child (h : q ∈ p.children) : q.preorder ⊆ p.preorder := by
  intro r hr
  rw [preorder_eq p]
  exact .tail _ (List.mem_flatMap.mpr ⟨q, h, hr⟩)

theorem one_le_depth (p : Pattern) : 1 ≤ p.depth := by
  cases p <;> simp [depth]

theorem depth_lt_of_child (h : q ∈ p.children) : q.depth < p.depth := by
  cases p with
  | char | range | anyChar | empty | emptyString => cases h
  | alternation left right | concatenation left right | intersection left right =>
    simp only [children, List.mem_cons, List.not_mem_nil, or_false] at h
    rw [depth, Nat.max_eq_max, Nat.lt_succ_iff]
    rcases h with rfl | rfl
    · exact Nat.le_max_left _ _
    · exact Nat.le_max_right _ _
  | star inner | plus inner | repeated inner | complement inner =>
    rw [List.mem_singleton.mp h, depth]
    exact Nat.lt_succ_self _

theorem exists_deepest_child (p : Pattern) :
    p.depth = 1 ∨ ∃ q ∈ p.children, p.depth = q.depth + 1 := by
  cases p with
  | char | range | anyChar | empty | emptyString => exact .inl rfl
  | alternation left right | concatenation left right | intersection left right =>
    rw [depth, Nat.max_eq_max]
    rcases Nat.le_total left.depth right.depth with hle | hle
    · exact .inr ⟨right, by simp [children], by rw [Nat.max_eq_right hle]⟩
    · exact .inr ⟨left, by simp [children], by rw [Nat.max_eq_left hle]⟩
  | star inner | plus inner | repeated inner | complement inner =>
    exact .inr ⟨inner, by simp [children], rfl⟩

/-- **The depth is the length of the longest way down.** -/
theorem lt_depth_iff : n < p.depth ↔
    ∃ path, List.IsChain (fun p q => q ∈ p.children) (p :: path) ∧ n < (p :: path).length := by
  constructor
  · intro h
    induction n generalizing p with
    | zero => exact ⟨[], List.isChain_singleton _, Nat.zero_lt_one⟩
    | succ n ih =>
      rcases p.exists_deepest_child with hone | ⟨q, hq, hdepth⟩
      · omega
      · obtain ⟨path, hchain, hlength⟩ := ih (Nat.lt_of_succ_lt_succ (hdepth ▸ h))
        exact ⟨q :: path, List.isChain_cons_cons.mpr ⟨hq, hchain⟩, Nat.succ_lt_succ hlength⟩
  · intro ⟨path, hchain, hlength⟩
    refine Nat.lt_of_lt_of_le hlength ?_
    clear hlength
    induction path generalizing p with
    | nil => exact p.one_le_depth
    | cons q path ih =>
      obtain ⟨hq, hchain⟩ := List.isChain_cons_cons.mp hchain
      exact Nat.succ_le_of_lt (Nat.lt_of_le_of_lt (ih hchain) (depth_lt_of_child hq))

def Repeats (p : Pattern) : Prop := ∃ inner min max, p = repeated inner min max

/-- A repetition that asks for more rounds than it admits. -/
def Inverted (p : Pattern) : Prop := ∃ inner min max, p = repeated inner min (some max) ∧ max < min

/-- The bounds of a repetition at the top, if they are inverted. -/
def inverted? : Pattern → Option (Nat × Nat)
  | repeated _ min (some max) => if max < min then some (min, max) else none
  | _ => none

theorem inverted?_eq_some_iff :
    p.inverted? = some (min, max) ↔ max < min ∧ ∃ inner, p = repeated inner min (some max) := by
  fun_cases inverted? p with
  | case1 inner min' max' hlt => simp; grind
  | case2 inner min' max' hle => simp; grind
  | case3 p hne => simp; grind

theorem inverted?_eq_none_iff : p.inverted? = none ↔ ¬ p.Inverted := by
  rw [Option.eq_none_iff_forall_ne_some]
  constructor
  · rintro h ⟨inner, min, max, hp, hlt⟩
    exact h (min, max) (inverted?_eq_some_iff.mpr ⟨hlt, inner, hp⟩)
  · intro h ⟨min, max⟩ hsome
    obtain ⟨hlt, inner, hp⟩ := inverted?_eq_some_iff.mp hsome
    exact h ⟨inner, min, max, hp, hlt⟩

/-- The check goes through the parts in order. -/
theorem invertedBounds?_eq (p : Pattern) : p.invertedBounds? = p.preorder.findSome? inverted? := by
  induction p with
  | char | range | anyChar | empty | emptyString => rfl
  | alternation left right ihl ihr | concatenation left right ihl ihr
  | intersection left right ihl ihr =>
    exact (congrArg₂ Option.or ihl ihr).trans List.findSome?_append.symm
  | star inner ih | plus inner ih | complement inner ih => exact ih
  | repeated inner min max ih =>
    cases max with
    | none => exact ih
    | some max =>
      rw [invertedBounds?, preorder, List.findSome?_cons, inverted?, ih]
      split <;> rfl

/-- Nothing before this repetition is inverted. -/
def FirstInverted (p : Pattern) (min max : Nat) : Prop :=
  ∃ before inner after, p.preorder = before ++ repeated inner min (some max) :: after ∧
    max < min ∧ ∀ q ∈ before, ¬ q.Inverted

theorem invertedBounds?_eq_some_iff :
    p.invertedBounds? = some (min, max) ↔ p.FirstInverted min max := by
  rw [invertedBounds?_eq, List.findSome?_eq_some_iff]
  simp only [inverted?_eq_some_iff, inverted?_eq_none_iff]
  constructor
  · rintro ⟨before, _, after, hsplit, ⟨hlt, inner, rfl⟩, hbefore⟩
    exact ⟨before, inner, after, hsplit, hlt, hbefore⟩
  · intro ⟨before, inner, after, hsplit, hlt, hbefore⟩
    exact ⟨before, _, after, hsplit, ⟨hlt, inner, rfl⟩, hbefore⟩

theorem FirstInverted.unique {min' max' : Nat} (h : p.FirstInverted min max)
    (h' : p.FirstInverted min' max') : min = min' ∧ max = max' := by
  rw [← invertedBounds?_eq_some_iff] at h h'
  exact Prod.ext_iff.mp (Option.some.inj (h.symm.trans h'))

theorem invertedBounds?_eq_none_iff :
    p.invertedBounds? = none ↔ ∀ q ∈ p.preorder, ¬ q.Inverted := by
  rw [invertedBounds?_eq, List.findSome?_eq_none_iff]
  simp only [inverted?_eq_none_iff]

theorem exists_firstInverted_iff :
    (∃ min max, p.FirstInverted min max) ↔ ∃ q ∈ p.preorder, q.Inverted := by
  constructor
  · intro ⟨min, max, before, inner, after, hsplit, hlt, _⟩
    exact ⟨inner.repeated min (some max), by simp [hsplit], inner, min, max, rfl, hlt⟩
  · intro ⟨q, hq, hinverted⟩
    cases hp : p.invertedBounds? with
    | none => exact absurd hinverted (invertedBounds?_eq_none_iff.mp hp q hq)
    | some bounds => exact ⟨bounds.1, bounds.2, invertedBounds?_eq_some_iff.mp hp⟩

theorem invertedBounds?_of_child (hp : p.invertedBounds? = none) (h : q ∈ p.children) :
    q.invertedBounds? = none :=
  invertedBounds?_eq_none_iff.mpr fun r hr =>
    invertedBounds?_eq_none_iff.mp hp r (preorder_subset_of_child h hr)

end Pattern

open Build

variable {limits : Limits} {errors : BuildError → Prop} {k : Nat}

/-! ## What a ceiling can refuse -/

section

variable (hstates : ∀ n, limits.maxStates = some n → errors (.stateLimit n))
include hstates

namespace Automaton

variable {a b : Automaton}

theorem minimizeWith_failsWith : (a.minimizeWith limits).FailsWith errors := by
  unfold minimizeWith determinizeWith
  split
  · exact failsWith_pure _
  · refine .bind ?_ fun dfa _ => ?_
    · split
      · exact failsWith_pure _
      · exact (Limits.explore_failsWith hstates).bind fun _ _ => failsWith_of_ok rfl
    · dsimp only
      split
      · exact failsWith_pure _
      · exact failsWith_of_ok rfl

theorem intersectionInStep_failsWith (ha : a.deterministic = true) (hb : b.deterministic = true) :
    (a.intersectionInStep limits b).FailsWith errors := by
  rw [intersectionInStep, productOver, ha, hb]
  dsimp only
  rw [if_neg (by decide)]
  split
  · exact failsWith_pure _
  · exact failsWith_pure _
  · exact (Limits.explore_failsWith hstates).bind fun _ _ => failsWith_of_ok rfl

end Automaton

theorem Graph.repetition_failsWith (hids : errors (.stateLimit idSpace)) {g : Graph} {f : Fragment}
    {min : Nat} {max : Option Nat} : (g.repetition limits f min max).FailsWith errors := by
  have hcheck : ∀ count, (checkIds count).FailsWith errors := by
    intro count
    unfold checkIds
    split
    · exact failsWith_pure _
    · rintro _ ⟨⟩
      exact hids
  unfold repetition
  split
  · exact failsWith_of_ok rfl
  · refine (hcheck _).bind fun _ _ => (hcheck _).bind fun _ _ => ?_
    refine ((hcheck _).bind fun _ _ => Limits.checkStates_failsWith hstates).bind fun _ _ => ?_
    cases max <;> exact failsWith_of_ok rfl

end

/-! ## Building -/

namespace Compiler

variable {minimize : Bool} {p q left right inner : Pattern} {g : Graph} {f : Fragment} {a : Automaton}

theorem finish_failsWith (hstates : ∀ n, limits.maxStates = some n → errors (.stateLimit n)) :
    (finish limits minimize p f g).FailsWith errors := by
  unfold finish
  refine (failsWith_of_ok (outcome_lift _)).bind fun flat _ =>
    (Limits.checkStates_failsWith hstates).bind fun _ _ => ?_
  dsimp only
  split
  · exact (Automaton.minimizeWith_failsWith hstates).bind fun _ _ => failsWith_of_ok rfl
  · exact failsWith_of_ok rfl

/-- What is compiled for a Boolean part is deterministic. -/
theorem deterministic_compile (h : (compile ⟨limits, true⟩ p).outcome = .ok a) :
    a.deterministic = true := by
  obtain ⟨g, _, f, hf, h⟩ := compile_finishes h
  unfold finish at h
  obtain ⟨flat, hflat, h⟩ := Build.outcome_bind_eq_ok.mp h
  obtain ⟨_, -, h⟩ := Build.outcome_bind_eq_ok.mp h
  obtain ⟨_, hm, h⟩ := Build.outcome_bind_eq_ok.mp h
  obtain rfl := Build.outcome_reported.mp h
  rw [Build.outcome_lift] at hflat
  obtain rfl := Except.ok.inj hflat
  obtain ⟨hwell, hlanguage⟩ := hf.toAutomaton
  obtain ⟨hknown, -⟩ := record_exact hwell hlanguage
  obtain ⟨hmark, -⟩ | ⟨-, -, -, hdet, -⟩ := hknown.minimizeWith_eq_ok hm
  · -- a flattened fragment is not marked minimal
    have hplain := (g.plain_toAutomaton f).minimal_eq
    split at hmark <;> exact absurd (hplain.symm.trans hmark) Bool.false_ne_true
  · exact hdet

/-! ## Checks -/

section

variable {c : Compiler}

theorem compile_tooDeep (h : c.limits.maxDepth < p.depth) :
    (c.compile p).outcome = .error (.depthLimit c.limits.maxDepth) := by
  rw [compile, compileLowered, Limits.checkDepth, if_pos h]
  rfl

theorem compile_inverted {min max : Nat} (h : p.depth ≤ c.limits.maxDepth)
    (hp : p.invertedBounds? = some (min, max)) :
    (c.compile p).outcome = .error (.invertedBounds min max) := by
  rw [compile, compileLowered, Limits.checkDepth, if_neg (Nat.not_lt_of_le h), hp]
  rfl

/-- Checks that pass leave no trace. -/
theorem compile_checked (h : p.depth ≤ c.limits.maxDepth) (hp : p.invertedBounds? = none) :
    c.compile p =
      lower c.limits {} p >>= fun (f, g) => finish c.limits c.minimize p f g := by
  rw [compile, compileLowered, Limits.checkDepth, if_neg (Nat.not_lt_of_le h), hp]
  rfl

/-- An operand of a checked pattern passes the checks again. -/
theorem compile_operand (h : p.depth ≤ limits.maxDepth) (hp : p.invertedBounds? = none)
    (hq : q ∈ p.children) :
    compile ⟨limits, true⟩ q = lower limits {} q >>= fun (f, g) => finish limits true q f g :=
  compile_checked ((Pattern.depth_lt_of_child hq).le.trans h)
    (Pattern.invertedBounds?_of_child hp hq)

end

/-! ## Whole compilations -/

/-- What has passed the checks fails only at a ceiling. -/
theorem lower_failsWith (hstates : ∀ n, limits.maxStates = some n → errors (.stateLimit n))
    (hids : ∀ q ∈ p.preorder, q.Repeats → errors (.stateLimit idSpace))
    (h : p.depth ≤ limits.maxDepth) (hp : p.invertedBounds? = none) :
    (lower limits g p).FailsWith errors := by
  have hchild : ∀ {p : Pattern}, (∀ q ∈ p.preorder, q.Repeats → errors (.stateLimit idSpace)) →
      ∀ {q}, q ∈ p.children → ∀ r ∈ q.preorder, r.Repeats → errors (.stateLimit idSpace) :=
    fun hids _ hq r hr => hids r (Pattern.preorder_subset_of_child hq hr)
  have hless : ∀ {p q : Pattern}, p.depth ≤ limits.maxDepth → q ∈ p.children →
      q.depth ≤ limits.maxDepth := fun h hq => (Pattern.depth_lt_of_child hq).le.trans h
  induction p generalizing g with
  | char | range | anyChar | empty | emptyString => exact failsWith_pure _
  | alternation left right ihl ihr | concatenation left right ihl ihr =>
    unfold lower
    have hleft := ihl (g := g) (hchild hids (.head _)) (hless h (.head _))
      (Pattern.invertedBounds?_of_child hp (.head _))
    refine hleft.bind fun _ _ => FailsWith.bind ?_ fun _ _ => failsWith_pure _
    exact ihr (hchild hids (.tail _ (.head _))) (hless h (.tail _ (.head _)))
      (Pattern.invertedBounds?_of_child hp (.tail _ (.head _)))
  | star inner ih | plus inner ih =>
    unfold lower
    exact (ih (hchild hids (.head _)) (hless h (.head _)) hp).bind fun _ _ => failsWith_pure _
  | repeated inner min max ih =>
    unfold lower
    have hinner := ih (g := g) (hchild hids (.head _)) (hless h (.head _)) (bounds_of_repeated hp).1
    refine hinner.bind fun _ _ => ?_
    exact Graph.repetition_failsWith hstates
      (hids _ (Pattern.mem_preorder_self _) ⟨inner, min, max, rfl⟩)
  | intersection left right ihl ihr =>
    obtain ⟨hpl, hpr⟩ := Option.or_eq_none_iff.mp hp
    have hleft : (compile ⟨limits, true⟩ left).FailsWith errors := by
      rw [compile_operand h hp (.head _)]
      exact (ihl (hchild hids (.head _)) (hless h (.head _)) hpl).bind fun _ _ =>
        finish_failsWith hstates
    have hright : (compile ⟨limits, true⟩ right).FailsWith errors := by
      rw [compile_operand h hp (.tail _ (.head _))]
      exact (ihr (hchild hids (.tail _ (.head _))) (hless h (.tail _ (.head _))) hpr).bind fun _ _ =>
        finish_failsWith hstates
    rw [lower_intersection]
    refine hleft.bind fun a ha => hright.bind fun b hb => ?_
    exact (Automaton.intersectionInStep_failsWith hstates (deterministic_compile ha)
      (deterministic_compile hb)).bind fun _ _ => failsWith_pure _
  | complement inner ih =>
    have hinner : (compile ⟨limits, true⟩ inner).FailsWith errors := by
      rw [compile_operand h hp (.head _)]
      exact (ih (hchild hids (.head _)) (hless h (.head _)) hp).bind fun _ _ => finish_failsWith hstates
    rw [lower_complement]
    refine hinner.bind fun a ha => ?_
    obtain ⟨m, hm⟩ := Automaton.exists_complement (deterministic_compile ha)
    exact (failsWith_of_ok hm).bind fun _ _ => failsWith_pure _

variable {c : Compiler}

/-- What can still go wrong after both checks. -/
inductive Refused (limits : Limits) (p : Pattern) : BuildError → Prop
  | ceiling {n : Nat} : limits.maxStates = some n → Refused limits p (.stateLimit n)
  | ids {q : Pattern} : q ∈ p.preorder → q.Repeats → Refused limits p (.stateLimit idSpace)

theorem compile_failsWith (h : p.depth ≤ c.limits.maxDepth) (hp : p.invertedBounds? = none) :
    (c.compile p).FailsWith (Refused c.limits p) := by
  rw [compile_checked h hp]
  have hstates : ∀ n, c.limits.maxStates = some n → Refused c.limits p (.stateLimit n) :=
    fun _ => .ceiling
  exact (lower_failsWith hstates (fun _ => .ids) h hp).bind fun _ _ => finish_failsWith hstates

/-- There are three cases, in this order. -/
theorem compile_cases (c : Compiler) (p : Pattern) :
    (c.limits.maxDepth < p.depth ∧
      (c.compile p).outcome = .error (.depthLimit c.limits.maxDepth)) ∨
    (∃ min max, p.depth ≤ c.limits.maxDepth ∧ p.FirstInverted min max ∧
      (c.compile p).outcome = .error (.invertedBounds min max)) ∨
    p.depth ≤ c.limits.maxDepth ∧ (∀ q ∈ p.preorder, ¬ q.Inverted) ∧
      (c.compile p).FailsWith (Refused c.limits p) := by
  rcases Nat.lt_or_ge c.limits.maxDepth p.depth with hdeep | hdepth
  · exact .inl ⟨hdeep, compile_tooDeep hdeep⟩
  · cases hp : p.invertedBounds? with
    | some bounds =>
      exact .inr (.inl ⟨bounds.1, bounds.2, hdepth, Pattern.invertedBounds?_eq_some_iff.mp hp,
        compile_inverted hdepth hp⟩)
    | none =>
      exact .inr (.inr ⟨hdepth, Pattern.invertedBounds?_eq_none_iff.mp hp,
        compile_failsWith hdepth hp⟩)

theorem depthLimit_iff {limit : Nat} : (c.compile p).outcome = .error (.depthLimit limit) ↔
    c.limits.maxDepth < p.depth ∧ limit = c.limits.maxDepth := by
  obtain ⟨hdeep, heq⟩ | ⟨min, max, hdepth, -, heq⟩ | ⟨hdepth, -, hfails⟩ :=
    compile_cases c p
  · rw [heq]
    refine ⟨fun h => ⟨hdeep, ?_⟩, fun h => h.2 ▸ rfl⟩
    cases h
    rfl
  · rw [heq]
    exact iff_of_false nofun fun h => Nat.not_le_of_lt h.1 hdepth
  · exact iff_of_false (nomatch hfails _ ·) fun h => Nat.not_le_of_lt h.1 hdepth

theorem invertedBounds_iff {min max : Nat} :
    (c.compile p).outcome = .error (.invertedBounds min max) ↔
      p.depth ≤ c.limits.maxDepth ∧ p.FirstInverted min max := by
  obtain ⟨hdeep, heq⟩ | ⟨min', max', hdepth, hfirst, heq⟩ | ⟨-, hnone, hfails⟩ :=
    compile_cases c p
  · rw [heq]
    exact iff_of_false nofun fun h => Nat.not_le_of_lt hdeep h.1
  · rw [heq]
    constructor
    · rintro ⟨⟩
      exact ⟨hdepth, hfirst⟩
    · rintro ⟨-, h⟩
      obtain ⟨rfl, rfl⟩ := h.unique hfirst
      rfl
  · refine iff_of_false (nomatch hfails _ ·) fun h => ?_
    obtain ⟨q, hq, hinverted⟩ := Pattern.exists_firstInverted_iff.mp ⟨min, max, h.2⟩
    exact hnone q hq hinverted

/-- A pattern without a fault compiles or is refused. -/
theorem compile_faultless (h : p.depth ≤ c.limits.maxDepth)
    (hp : ∀ q ∈ p.preorder, ¬ q.Inverted) :
    (∃ a, (c.compile p).outcome = .ok a) ∨
      ∃ err, (c.compile p).outcome = .error err ∧ Refused c.limits p err := by
  have hfails := compile_failsWith h (Pattern.invertedBounds?_eq_none_iff.mpr hp)
  cases hc : (c.compile p).outcome with
  | ok a => exact .inl ⟨a, rfl⟩
  | error err => exact .inr ⟨err, rfl, hfails err hc⟩

theorem compile_unrepeated (h : p.depth ≤ c.limits.maxDepth)
    (hp : ∀ q ∈ p.preorder, ¬ q.Repeats) (hunlimited : c.limits.maxStates = none) :
    ∃ a, (c.compile p).outcome = .ok a := by
  have hinverted : ∀ q ∈ p.preorder, ¬ q.Inverted := fun q hq ⟨inner, min, max, heq, _⟩ =>
    hp q hq ⟨inner, min, some max, heq⟩
  obtain hok | ⟨_, -, hrefused⟩ := compile_faultless h hinverted
  · exact hok
  · cases hrefused with
    | ceiling hn => cases hunlimited.symm.trans hn
    | ids hq hrepeats => exact absurd hrepeats (hp _ hq)

/-- **Why a compilation fails.** A pattern that is too deep fails for that reason alone, then the first
inverted repetition decides, and what has neither fault can only run into a ceiling on states. Without
repetitions and without a ceiling it compiles. -/
theorem compile_classified (c : Compiler) (p : Pattern) :
    (∀ limit, (c.compile p).outcome = .error (.depthLimit limit) ↔
      c.limits.maxDepth < p.depth ∧ limit = c.limits.maxDepth) ∧
    (∀ min max, (c.compile p).outcome = .error (.invertedBounds min max) ↔
      p.depth ≤ c.limits.maxDepth ∧ p.FirstInverted min max) ∧
    (p.depth ≤ c.limits.maxDepth →
      ((∃ min max, (c.compile p).outcome = .error (.invertedBounds min max)) ↔
        ∃ q ∈ p.preorder, q.Inverted) ∧
      ((∀ q ∈ p.preorder, ¬ q.Inverted) →
        (∃ a, (c.compile p).outcome = .ok a) ∨
          ∃ n, (c.compile p).outcome = .error (.stateLimit n)) ∧
      ((∀ q ∈ p.preorder, ¬ q.Repeats) → c.limits.maxStates = none →
        ∃ a, (c.compile p).outcome = .ok a)) ∧
    (c.compile p).outcome ≠ .error .notDeterministic := by
  refine ⟨fun limit => depthLimit_iff, fun min max => invertedBounds_iff, fun h => ⟨?_, fun hp => ?_,
    compile_unrepeated h⟩, fun h => ?_⟩
  · simp only [invertedBounds_iff, h, true_and]
    exact Pattern.exists_firstInverted_iff
  · obtain hok | ⟨_, herr, hrefused⟩ := compile_faultless h hp
    · exact .inl hok
    · cases hrefused with
      | ceiling _ | ids _ _ => exact .inr ⟨_, herr⟩
  · rcases compile_cases c p with ⟨-, heq⟩ | ⟨_, _, -, -, heq⟩ | ⟨-, -, hfails⟩
    · cases heq.symm.trans h
    · cases heq.symm.trans h
    · nomatch hfails _ h

/-- Two inverted repetitions below Boolean parts, the deeper one first. -/
def tangled : Pattern :=
  .intersection (.complement (.repeated (.plus (.char 'a')) 5 (some 2)))
    (.repeated .anyChar 1 (some 0))

theorem firstInverted_tangled : tangled.FirstInverted 5 2 :=
  ⟨[tangled, .complement (.repeated (.plus (.char 'a')) 5 (some 2))], .plus (.char 'a'),
    [.plus (.char 'a'), .char 'a', .repeated .anyChar 1 (some 0), .anyChar], rfl, by decide, by
      simp [tangled, Pattern.Inverted]⟩

theorem compile_classified_tangled :
    (compile ⟨⟨none, 3⟩, true⟩ tangled).outcome = .error (.depthLimit 3) ∧
    (compile {} tangled).outcome = .error (.invertedBounds 5 2) ∧
    (∃ n, (compile ⟨⟨some 1, 9⟩, true⟩ (.repeated .anyChar 2 (some 3))).outcome =
      .error (.stateLimit n)) ∧
    ∃ a, (compile {} (.complement (.intersection (.star .anyChar) (.char 'a')))).outcome = .ok a := by
  refine ⟨((compile_classified _ _).1 3).mpr ⟨by decide, rfl⟩,
    ((compile_classified _ _).2.1 5 2).mpr ⟨by decide, firstInverted_tangled⟩, ?_, ?_⟩
  · have hok : ¬ ∃ a, (compile ⟨⟨some 1, 9⟩, true⟩
        (.repeated .anyChar 2 (some 3))).outcome = .ok a := by
      intro ⟨a, ha⟩
      have hnone : (compile ⟨⟨some 1, 9⟩, true⟩
          (.repeated .anyChar 2 (some 3))).outcome.toOption.isSome = false := by decide +kernel
      rw [ha] at hnone
      cases hnone
    refine (((compile_classified _ _).2.2.1 (by decide)).2.1 ?_).resolve_left hok
    simp [Pattern.preorder, Pattern.Inverted]
  · refine ((compile_classified _ _).2.2.1 (by decide)).2.2 ?_ rfl
    simp [Pattern.preorder, Pattern.Repeats]

end Compiler

end IntervalAutomata
