import IntervalAutomata.Proofs.Acceptors
import IntervalAutomata.Proofs.CompilationErrors
import Mathlib.Data.Nat.Log

/-! # Literals compile to their acceptors

Pairing neighbours level by level keeps the characters in order and halves the level, so the tree that is
left spells the literal and is as deep as the levels are many. A tree that spells a text is lowered to a
ladder: two nodes for each character, an edge between them and an empty step on to the next two. In a
ladder every second node is looked through, so the exploration goes along a line and flattening gives
back the chain of the literal. -/

namespace IntervalAutomata

namespace Pattern

/-- Concatenations of characters, in order. -/
inductive Spelled : Pattern → List Char → Prop
  | char (c : Char) : Spelled (char c) [c]
  | concatenation {left right : Pattern} {u v : List Char} : Spelled left u → Spelled right v →
      Spelled (concatenation left right) (u ++ v)

/-- The patterns of one level, from left to right. -/
inductive SpelledAll : List Pattern → List Char → Prop
  | nil : SpelledAll [] []
  | cons {p : Pattern} {ps : List Pattern} {u v : List Char} : Spelled p u → SpelledAll ps v →
      SpelledAll (p :: ps) (u ++ v)

variable {p : Pattern} {ps : List Pattern} {u v cs : List Char} {d fuel : Nat}

/-! ## Levels -/

theorem length_pairUp (ps : List Pattern) : (pairUp ps).length = (ps.length + 1) / 2 := by
  fun_induction pairUp ps with
  | case1 left right rest ih =>
    rw [List.length_cons, ih, List.length_cons, List.length_cons]
    omega
  | case2 rest hshort =>
    match rest, hshort with
    | [], _ => rfl
    | [_], _ => simp
    | left :: right :: rest, hshort => exact (hshort left right rest rfl).elim

theorem SpelledAll.pairUp (h : SpelledAll ps u) : SpelledAll (pairUp ps) u := by
  fun_induction Pattern.pairUp ps generalizing u with
  | case1 left right rest ih =>
    cases h with
    | cons hleft h =>
      cases h with
      | cons hright h =>
        rw [← List.append_assoc]
        exact .cons (.concatenation hleft hright) (ih h)
  | case2 => exact h

theorem depth_pairUp_le (h : ∀ p ∈ ps, p.depth ≤ d) : ∀ p ∈ pairUp ps, p.depth ≤ d + 1 := by
  fun_induction pairUp ps with
  | case1 left right rest ih =>
    obtain ⟨hleft, h⟩ := List.forall_mem_cons.mp h
    obtain ⟨hright, h⟩ := List.forall_mem_cons.mp h
    exact List.forall_mem_cons.mpr ⟨Nat.succ_le_succ (Nat.max_le.mpr ⟨hleft, hright⟩), ih h⟩
  | case2 => exact fun p hp => Nat.le_succ_of_le (h p hp)

theorem spelled_joinPairs (hp : p.Spelled u) (hps : SpelledAll ps v) (hfuel : ps.length ≤ fuel) :
    (joinPairs fuel (p :: ps)).Spelled (u ++ v) := by
  induction fuel generalizing p ps u v with
  | zero =>
    cases hps with
    | nil => exact (List.append_nil u).symm ▸ hp
    | cons => exact absurd hfuel (Nat.not_succ_le_zero _)
  | succ fuel ih =>
    cases hps with
    | nil => exact (List.append_nil u).symm ▸ hp
    | @cons q rest _ _ hq hrest =>
      rw [← List.append_assoc]
      refine ih (.concatenation hp hq) hrest.pairUp ?_
      rw [List.length_cons] at hfuel
      rw [length_pairUp]
      omega

/-- The first pattern of a level is as deep as any, and each level is one deeper than the one before. -/
theorem depth_joinPairs (hp : p.depth = d) (hps : ∀ q ∈ ps, q.depth ≤ d) (hfuel : ps.length ≤ fuel) :
    (joinPairs fuel (p :: ps)).depth = d + Nat.clog 2 (ps.length + 1) := by
  induction fuel generalizing p ps d with
  | zero =>
    obtain rfl := List.length_eq_zero_iff.mp (Nat.le_zero.mp hfuel)
    rw [List.length_nil, Nat.clog_one_right]
    exact hp
  | succ fuel ih =>
    cases ps with
    | nil =>
      rw [List.length_nil, Nat.clog_one_right]
      exact hp
    | cons q rest =>
      obtain ⟨hq, hrest⟩ := List.forall_mem_cons.mp hps
      have hpair : (concatenation p q).depth = d + 1 :=
        congrArg Nat.succ ((congrArg (Nat.max · q.depth) hp).trans (Nat.max_eq_left hq))
      have hhalf : (rest.length + 1 + 1 + 2 - 1) / 2 = (rest.length + 1) / 2 + 1 := by omega
      rw [List.length_cons] at hfuel ⊢
      rw [Nat.clog_of_two_le (by omega) (by omega), hhalf, ← length_pairUp, ← Nat.add_assoc,
        Nat.add_right_comm]
      refine ih hpair (depth_pairUp_le hrest) ?_
      rw [length_pairUp]
      omega

/-! ## Literals -/

theorem spelledAll_map_char (cs : List Char) : SpelledAll (cs.map char) cs := by
  induction cs with
  | nil => exact .nil
  | cons c cs ih => exact .cons (.char c) ih

theorem spelled_literal (hcs : cs ≠ []) : (literal cs).Spelled cs := by
  obtain ⟨c, cs, rfl⟩ := List.exists_cons_of_ne_nil hcs
  refine spelled_joinPairs (.char c) (spelledAll_map_char cs) ?_
  rw [List.length_map]
  exact Nat.le_succ _

theorem depth_literal (cs : List Char) :
    (literal cs).depth = 1 + Nat.clog 2 (Nat.max cs.length 1) := by
  cases cs with
  | nil => rfl
  | cons c cs =>
    have hdepth : (literal (c :: cs)).depth = 1 + Nat.clog 2 ((cs.map char).length + 1) := by
      refine depth_joinPairs rfl (fun p hp => ?_) ?_
      · obtain ⟨c, -, rfl⟩ := List.mem_map.mp hp
        exact Nat.le_refl 1
      · rw [List.length_map]
        exact Nat.le_succ _
    rw [hdepth, List.length_map, List.length_cons, Nat.max_eq_max, Nat.max_eq_left (Nat.succ_pos _)]

theorem Spelled.word? (h : p.Spelled u) : p.word? = some u := by
  induction h with
  | char => rfl
  | @concatenation left right _ _ _ _ ihl ihr =>
    show left.word?.bind (fun u => right.word?.bind fun v => some (u ++ v)) = _
    rw [ihl, ihr]
    rfl

theorem Spelled.invertedBounds? (h : p.Spelled u) : p.invertedBounds? = none := by
  induction h with
  | char => rfl
  | concatenation _ _ ihl ihr => exact Option.or_eq_none_iff.mpr ⟨ihl, ihr⟩

theorem Spelled.length_pos (h : p.Spelled u) : 0 < u.length := by
  induction h with
  | char => exact Nat.one_pos
  | concatenation _ _ ihl _ =>
    rw [List.length_append]
    omega

theorem word?_literal (cs : List Char) : (literal cs).word? = some cs := by
  by_cases hcs : cs = []
  · rw [hcs]
    rfl
  · exact (spelled_literal hcs).word?

theorem invertedBounds?_literal (cs : List Char) : (literal cs).invertedBounds? = none := by
  by_cases hcs : cs = []
  · rw [hcs]
    rfl
  · exact (spelled_literal hcs).invertedBounds?

end Pattern

/-! ## Lines -/

/-- What is seen where a label leads on from one node to the next, or at the end of a line. -/
def lineRow {α : Type} (node : Nat → α) (labels : List Interval) (k : Nat) : Row α Interval :=
  ⟨decide (k = labels.length), (labels[k]?.map fun i => (i, node (k + 1))).toList⟩

section

variable {α : Type} {cmp : α → α → Ordering} [Std.TransCmp cmp] [Std.LawfulEqCmp cmp]
variable {look : α → Row α Interval} {node : Nat → α} {labels : List Interval}
variable {e : Exploration α Interval cmp}

theorem Exploration.Explored.items_line (h : Explored look (node 0) e)
    (hlook : ∀ k ≤ labels.length, look (node k) = lineRow node labels k)
    (hinj : ∀ j k, node j = node k → j = k) :
    e.items.toList = (List.range (labels.length + 1)).map node := by
  have hrows : BreadthFirst (fun k => (labels[k]?.map fun _ => k + 1).toList) (labels.length + 1) := by
    refine Automaton.breadthFirst_line (fun k hk => ?_) ?_
    · rw [List.getElem?_eq_getElem hk]
      rfl
    · rw [List.getElem?_eq_none (Nat.le_refl _)]
      rfl
  refine h.items_eq_map hrows (fun k hk => ?_) fun j _ k _ => hinj j k
  rw [hlook k (Nat.le_of_lt_succ hk), lineRow]
  cases labels[k]? <;> rfl

/-- **An exploration of a line** numbers it from one end to the other. -/
theorem Exploration.Explored.spells (h : Explored look (node 0) e)
    (hlook : ∀ k ≤ labels.length, look (node k) = lineRow node labels k)
    (hinj : ∀ j k, node j = node k → j = k) : (e.assembled id).Spells labels := by
  have hitems := h.items_line hlook hinj
  have hsize : e.items.size = labels.length + 1 := by
    rw [← Array.length_toList, hitems, List.length_map, List.length_range]
  have hitem : ∀ k ≤ labels.length, e.items[k]? = some (node k) := by
    intro k hk
    rw [← Array.getElem?_toList, hitems, List.getElem?_map, List.getElem?_range (by omega)]
    rfl
  have hstate : ∀ k ≤ labels.length,
      (e.assembled id).state k = (e.numbered (lineRow node labels k)).toState id := by
    intro k hk
    rw [h.state_assembled (hitem k hk), hlook k hk]
  have hbeyond : ∀ k, labels.length < k → (e.assembled id).state k = {} := by
    intro k hk
    refine Automaton.state_of_size_le ?_
    rw [h.size_assembled, hsize]
    exact hk
  refine ⟨h.size_assembled.trans hsize, rfl, fun k => ?_, fun k => ?_⟩
  · rcases Nat.lt_trichotomy k labels.length with hk | rfl | hk
    · rw [Automaton.transitions, hstate k (Nat.le_of_lt hk), lineRow, List.getElem?_eq_getElem hk]
      have hnext := h.indexed.numberOf_eq (hitem (k + 1) hk)
      exact congrArg (fun t => [Transition.mk labels[k] t]) hnext
    · rw [Automaton.transitions, hstate _ (Nat.le_refl _), lineRow,
        List.getElem?_eq_none (Nat.le_refl _)]
      rfl
    · rw [Automaton.transitions, hbeyond k hk, List.getElem?_eq_none (Nat.le_of_lt hk)]
      rfl
  · rcases Nat.lt_or_ge labels.length k with hk | hk
    · rw [Automaton.isAccepting, hbeyond k hk]
      exact iff_of_false Bool.false_ne_true (Nat.ne_of_gt hk)
    · rw [Automaton.isAccepting, hstate k hk]
      exact decide_eq_true_iff

end

/-! ## Ladders -/

namespace Graph

variable {g g₁ g₂ : Graph} {f k : Fragment} {n m : Nat} {u v cs : List Char} {built : Fragment × Graph}

/-- Two new nodes for each character, an edge between them and an empty step on to the next two. -/
structure Ladder (g : Graph) (cs : List Char) (built : Fragment × Graph) : Prop where
  fragment_eq : built.1 = ⟨g.size, g.size + 2 * cs.length - 1⟩
  size_eq : built.2.size = g.size + 2 * cs.length
  node_eq : ∀ n < g.size, built.2.node n = g.node n
  edge : ∀ i c, cs[i]? = some c → built.2.node (g.size + 2 * i) =
    ⟨[⟨.single c.toNat, g.size + 2 * i + 1⟩], []⟩
  step : ∀ i, i + 1 < cs.length → built.2.node (g.size + 2 * i + 1) = ⟨[], [g.size + 2 * i + 2]⟩
  last : ∀ i, i + 1 = cs.length → built.2.node (g.size + 2 * i + 1) = {}

theorem ladder_char (g : Graph) (c : Char) : g.Ladder [c] (g.interval (.single c.toNat)) := by
  have hentry : g.size < g.addNode.addNode.size := by
    rw [size_addNode, size_addNode]
    omega
  have hnode : ∀ n, (g.interval (.single c.toNat)).2.node n = if n = g.size
      then ⟨(g.node n).edges ++ [⟨.single c.toNat, g.size + 1⟩], (g.node n).successors⟩
      else g.node n := fun n => by rw [interval, node_addEdge hentry, node_addNode, node_addNode]
  refine ⟨rfl, ?_, fun n hn => ?_, fun i d hi => ?_, fun i hi => ?_, fun i hi => ?_⟩
  · rw [interval, size_addEdge, size_addNode, size_addNode]
    rfl
  · rw [hnode, if_neg (Nat.ne_of_lt hn)]
  · cases i with
    | zero =>
      rw [Nat.mul_zero, Nat.add_zero, hnode, if_pos rfl, node_of_size_le (Nat.le_refl _),
        ← Option.some.inj hi]
      rfl
    | succ i => cases hi
  · rw [List.length_singleton] at hi
    omega
  · rw [hnode, if_neg (by omega), node_of_size_le (by omega)]

/-- The exit of the first ladder leads on to the entry of the second. -/
theorem Ladder.append (h : g.Ladder u (f, g₁)) (h' : g₁.Ladder v (k, g₂)) (hu : 0 < u.length)
    (hv : 0 < v.length) : g.Ladder (u ++ v) (g₂.sequence [f, k]) := by
  obtain rfl : f = _ := h.fragment_eq
  obtain rfl : k = _ := h'.fragment_eq
  have hfirst : g₁.size = g.size + 2 * u.length := h.size_eq
  have hsecond : g₂.size = g₁.size + 2 * v.length := h'.size_eq
  have hexit : g.size + 2 * u.length - 1 < g₂.size := by omega
  have hnode : ∀ n, (g₂.connect (g.size + 2 * u.length - 1) g₁.size).node n =
      if n = g.size + 2 * u.length - 1
      then ⟨(g₂.node n).edges, (g₂.node n).successors ++ [g₁.size]⟩ else g₂.node n :=
    fun n => node_connect hexit
  have hleft : ∀ n < g₁.size, g₂.node n = g₁.node n := h'.node_eq
  refine ⟨?_, ?_, fun n hn => ?_, fun i c hi => ?_, fun i hi => ?_, fun i hi => ?_⟩
  · show Fragment.mk g.size (g₁.size + 2 * v.length - 1) = _
    rw [hfirst, List.length_append, Nat.mul_add, Nat.add_assoc]
  · show (g₂.connect _ _).size = _
    rw [size_connect, hsecond, hfirst, List.length_append, Nat.mul_add, Nat.add_assoc]
  · refine (hnode n).trans ?_
    rw [if_neg (by omega), hleft n (by omega)]
    exact h.node_eq n hn
  · refine (hnode _).trans ?_
    rw [if_neg (by omega)]
    rcases Nat.lt_or_ge i u.length with hiu | hiu
    · rw [List.getElem?_append_left hiu] at hi
      rw [hleft _ (by omega)]
      exact h.edge i c hi
    · rw [List.getElem?_append_right hiu] at hi
      obtain ⟨j, rfl⟩ := Nat.exists_eq_add_of_le hiu
      rw [Nat.add_sub_cancel_left] at hi
      rw [Nat.mul_add, ← Nat.add_assoc, ← hfirst]
      exact h'.edge j c hi
  · refine (hnode _).trans ?_
    rw [List.length_append] at hi
    rcases Nat.lt_trichotomy (i + 1) u.length with hiu | hiu | hiu
    · rw [if_neg (by omega), hleft _ (by omega)]
      exact h.step i hiu
    · rw [if_pos (by omega), hleft _ (by omega)]
      have hlast : g₁.node (g.size + 2 * i + 1) = {} := h.last i hiu
      rw [hlast, hfirst, ← hiu, Nat.mul_add, Nat.add_assoc g.size]
      rfl
    · obtain ⟨j, rfl⟩ := Nat.exists_eq_add_of_le (Nat.le_of_lt_succ hiu)
      rw [if_neg (by omega), Nat.mul_add, ← Nat.add_assoc, ← hfirst]
      exact h'.step j (by omega)
  · refine (hnode _).trans ?_
    rw [List.length_append] at hi
    obtain ⟨j, rfl⟩ := Nat.exists_eq_add_of_le (show u.length ≤ i by omega)
    rw [if_neg (by omega), Nat.mul_add, ← Nat.add_assoc, ← hfirst]
    exact h'.last j (by omega)

theorem exists_ladder {p : Pattern} (h : p.Spelled cs) (limits : Limits) (g : Graph) :
    ∃ built, Compiler.lower limits g p = pure built ∧ g.Ladder cs built := by
  induction h generalizing g with
  | char c => exact ⟨_, rfl, g.ladder_char c⟩
  | concatenation hleft hright ihl ihr =>
    obtain ⟨⟨f, g₁⟩, hf, hfirst⟩ := ihl g
    obtain ⟨⟨k, g₂⟩, hk, hsecond⟩ := ihr g₁
    refine ⟨_, ?_, hfirst.append hsecond hleft.length_pos hright.length_pos⟩
    rw [Compiler.lower, hf, pure_bind]
    dsimp only
    rw [hk, pure_bind]

/-! ## Looking through -/

variable {exit : Nat} {edges : List Transition}

theorem outlook_of_nil (hn : n < g.size) (h : g.node n = ⟨edges, []⟩)
    (hsorted : ascending Transition.order edges = edges) :
    g.outlook exit n = ⟨decide (n = exit), edges.map fun e => (e.interval, e.target)⟩ := by
  rw [outlook, closure_of_nil hn (congrArg Node.successors h), outlookOn, List.flatMap_singleton, h,
    hsorted]
  simp [eq_comm]

theorem outlook_of_single (hn : n < g.size) (hm : m < g.size) (hne : n ≠ m)
    (h : g.node n = ⟨[], [m]⟩) (h' : g.node m = ⟨edges, []⟩)
    (hsorted : ascending Transition.order edges = edges) :
    g.outlook exit n = ⟨decide (n = exit ∨ m = exit), edges.map fun e => (e.interval, e.target)⟩ := by
  have hclosure :=
    closure_of_single hn hm hne (congrArg Node.successors h) (congrArg Node.successors h')
  rw [outlook, hclosure, outlookOn, List.flatMap_cons, List.flatMap_singleton, h, h', List.nil_append,
    hsorted]
  simp [eq_comm]

/-- The entry of a ladder and the nodes behind its edges. -/
def landing (base k : Nat) : Nat := base + (2 * k - 1)

theorem landing_inj {base j k : Nat} : landing base j = landing base k ↔ j = k := by
  unfold landing
  omega

/-- **A ladder is seen as a line** from one landing to the next. -/
theorem Ladder.outlook (h : g.Ladder cs (f, g₁)) (hcs : 0 < cs.length) {k : Nat}
    (hk : k ≤ cs.length) : g₁.outlook f.exit (landing g.size k) =
      lineRow (landing g.size) (cs.map fun c => .single c.toNat) k := by
  have hexit : f.exit = landing g.size cs.length := by
    rw [show f = _ from h.fragment_eq, landing]
    exact Nat.add_sub_assoc (by omega) _
  have hsize : g₁.size = g.size + 2 * cs.length := h.size_eq
  have hlt : landing g.size k < g₁.size := by
    rw [landing]
    omega
  rw [lineRow, List.length_map, List.getElem?_map, hexit]
  cases k with
  | zero =>
    have hc := List.getElem?_eq_getElem hcs
    rw [outlook_of_nil hlt (h.edge 0 _ hc) rfl, hc]
    simp only [landing_inj]
    rfl
  | succ k =>
    have hlanding : landing g.size (k + 1) = g.size + 2 * k + 1 := rfl
    rcases Nat.lt_or_eq_of_le hk with hk | hk
    · have hc := List.getElem?_eq_getElem hk
      have hnext : g.size + 2 * (k + 1) < g₁.size := by omega
      rw [outlook_of_single hlt hnext (by omega) (h.step k hk) (h.edge (k + 1) _ hc) rfl, hc]
      have hno : g.size + 2 * (k + 1) ≠ landing g.size cs.length := by
        rw [landing]
        omega
      simp only [landing_inj, hno, or_false]
      rfl
    · rw [outlook_of_nil hlt (h.last k hk) rfl, List.getElem?_eq_none hk.ge]
      simp only [landing_inj]
      rfl

end Graph

namespace Compiler

open IntervalAutomata.Graph

/-- A literal is lowered to a ladder, or to a single node. -/
theorem exists_line (limits : Limits) (cs : List Char) : ∃ f g,
    lower limits {} (.literal cs) = pure (f, g) ∧ f.entry = landing 0 0 ∧ ∀ k ≤ cs.length,
      g.outlook f.exit (landing 0 k) = lineRow (landing 0) (cs.map fun c => .single c.toNat) k := by
  by_cases hcs : cs = []
  · subst hcs
    refine ⟨_, _, rfl, rfl, fun k hk => ?_⟩
    obtain rfl := Nat.le_zero.mp hk
    exact @outlook_of_nil _ _ _ [] Nat.one_pos rfl rfl
  · obtain ⟨⟨f, g⟩, hlower, hladder⟩ := exists_ladder (Pattern.spelled_literal hcs) limits {}
    refine ⟨f, g, hlower, congrArg Fragment.entry hladder.fragment_eq, fun k hk => ?_⟩
    exact hladder.outlook (List.length_pos_iff.mpr hcs) hk

/-- What a literal is lowered to is flattened to the chain of the literal. -/
theorem exists_chain (limits : Limits) (s : String) : ∃ f g,
    lower limits {} (.literal s.toList) = pure (f, g) ∧
      (g.toAutomaton f).setSingleton (some s) = { Automaton.string s with minimal := false } := by
  obtain ⟨f, g, hlower, hentry, hline⟩ := exists_line limits s.toList
  have hbuilt : (lower limits {} (.literal s.toList)).outcome = .ok (f, g) := by
    rw [hlower]
    rfl
  have hrealizes := (lower_builds (Pattern.invertedBounds?_literal _) hbuilt).realizes
  have hexplored := hrealizes.explored
  have hflat := hrealizes.toAutomaton_eq fun i hi => hi.min_le_max
  have hwell := hrealizes.toAutomaton.1
  rw [hentry] at hexplored hflat
  generalize exploreAll compare g.size (g.outlook f.exit) [landing 0 0] = e at hexplored hflat
  rw [hflat] at hwell
  have hspells : (e.assembled id).Spells (s.toList.map fun c => .single c.toNat) :=
    hexplored.spells (fun k hk => hline k (by rwa [List.length_map] at hk)) fun j k => landing_inj.mp
  have hdeterministic := hwell.deterministic_iff.mpr
    (hspells.canonical (Automaton.proper_of_mem_string s)).separated
  have hstates := hspells.states_eq (Automaton.spells_string s)
  refine ⟨f, g, hlower, ?_⟩
  rw [hflat]
  show Automaton.mk (e.assembled id).states 0 (e.assembled id).deterministic false (some s) = _
  rw [hstates, hdeterministic]
  rfl

/-- **Literals compile to their acceptors.** The tree of a literal has one level for each halving of its
length and shows the literal as its one word. Where its depth and one state more than it has characters
are allowed, it compiles to the acceptor of the literal, which is not marked minimal. -/
theorem compile_literal (s : String) :
    (Pattern.literal s.toList).depth = 1 + Nat.clog 2 (Nat.max s.length 1) ∧
    (Pattern.literal s.toList).word?.map String.ofList = some s ∧
    ∀ limits : Limits, (Pattern.literal s.toList).depth ≤ limits.maxDepth →
      (∀ n, limits.maxStates = some n → s.length + 1 ≤ n) →
      (compile ⟨limits, false⟩ (.literal s.toList)).outcome =
        .ok { Automaton.string s with minimal := false } := by
  refine ⟨?_, ?_, fun limits hdepth hstates => ?_⟩
  · rw [Pattern.depth_literal, String.length_toList]
  · rw [Pattern.word?_literal, Option.map_some, String.ofList_toList]
  · obtain ⟨f, g, hlower, hflat⟩ := exists_chain limits s
    have hsize : (g.toAutomaton f).size = s.length + 1 := by
      rw [← String.length_toList]
      exact (congrArg Automaton.size hflat).trans (Automaton.length_chain 0 s.toList)
    have hcheck : (limits.checkStates (g.toAutomaton f).size).outcome = .ok () :=
      Limits.outcome_checkStates fun n hn => hsize ▸ hstates n hn
    rw [compile_checked hdepth (Pattern.invertedBounds?_literal _), hlower, pure_bind]
    dsimp only
    unfold finish
    refine Build.outcome_bind_eq_ok.mpr ⟨_, Build.outcome_lift _,
      Build.outcome_bind_eq_ok.mpr ⟨(), hcheck, ?_⟩⟩
    rw [Pattern.word?_literal, ← hflat]
    dsimp only
    rw [String.ofList_toList]
    rfl

/-- Three rounds of pairing, the fifth character left over in two of them, within the least limits. -/
theorem compile_literal_hello : (Pattern.literal "héllo".toList).depth = 4 ∧
    (compile ⟨⟨some 6, 4⟩, false⟩ (.literal "héllo".toList)).outcome =
      .ok { Automaton.string "héllo" with minimal := false } := by
  have hdepth : (Pattern.literal "héllo".toList).depth = 4 := by decide
  refine ⟨hdepth, (compile_literal "héllo").2.2 ⟨some 6, 4⟩ (Nat.le_of_eq hdepth) fun n hn => ?_⟩
  rw [← Option.some.inj hn]
  decide

end Compiler

end IntervalAutomata
