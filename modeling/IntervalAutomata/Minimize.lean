import IntervalAutomata.Determinize
import IntervalAutomata.Operation.Trim
import IntervalAutomata.Partition

/-!
Minimization by partition refinement. The automaton is made deterministic and trimmed, and its states,
with a sink that absorbs missing transitions, are split until no class of symbols leads two states of
one block into different blocks. Rebuilding the automaton over blocks, breadth first and with the
widest intervals, makes the result depend on the language alone.

A splitter is a block together with a class. After a block is split, one of its two parts is enough
for each class that was not pending: a set of states that is split by neither the whole block nor one
part cannot be split by the other. Taking the smaller part keeps the work low.
-/

namespace IntervalAutomata

namespace Automaton

/-- The widest segments on which every state acts uniformly and some state moves. -/
def symbolClasses (a : Automaton) : List Interval :=
  let intervals := a.states.toList.flatMap fun s => s.transitions.map (·.interval)
  (segments (boundaries intervals)).filter fun cut =>
    (List.range a.size).any fun q => (a.step q cut.min).isSome

end Automaton

/-- The moves of states and a sink, backwards. -/
structure Sources where
  /-- The number of classes of symbols. -/
  classes : Nat
  /-- For each element the moves that lead there, as pairs of a class and a source, class by class. -/
  moves : Array (Array (Nat × Nat))

/-- The elements that class `c` leads to `target`. Its pairs stand together, behind those of the classes
before it. -/
def Sources.into (sources : Sources) (target c : Nat) : List Nat :=
  let moves := (sources.moves.getD target #[]).toList
  let fromClass := bisect (·.1 < c) (moves.length + 1) moves.length moves
  (fromClass.takeWhile (·.1 == c)).map (·.2)

namespace Automaton

/-- Where `symbol` leads a state or the sink behind the states. The sink is not left, and it takes in what
no transition covers. -/
def leadOn (a : Automaton) (symbol : Symbol) (q : Nat) : Nat := (a.step q symbol).getD a.size

/-- The moves on one symbol of each class. -/
def classSources (a : Automaton) : Sources :=
  let classes := a.symbolClasses
  { classes := classes.length
    moves := classes.zipIdx.foldl
      (fun moves cut => (List.range (a.size + 1)).foldl
        (fun moves q => moves.modify (a.leadOn cut.1.min q) (·.push (cut.2, q))) moves)
      (Array.replicate (a.size + 1) #[]) }

end Automaton

/-- A refinement under way: splitters are served in order, those from `next` on are pending. -/
structure Refinement where
  partition : Partition
  /-- Pairs of a block and a class. -/
  schedule : Array (Nat × Nat)
  next : Nat
  /-- Entry `block * classes + class` says whether that splitter is pending. The table grows with the
  blocks. -/
  pending : Array Bool

namespace Refinement

def isPending (classes : Nat) (r : Refinement) (splitter : Nat × Nat) : Bool :=
  r.pending.getD (splitter.1 * classes + splitter.2) false

/-- Schedules a splitter. -/
def post (classes : Nat) (r : Refinement) (splitter : Nat × Nat) : Refinement :=
  { r with
    schedule := r.schedule.push splitter
    pending := r.pending.setIfInBounds (splitter.1 * classes + splitter.2) true }

def enqueue (classes : Nat) (r : Refinement) (splitter : Nat × Nat) : Refinement :=
  if r.isPending classes splitter then r else r.post classes splitter

/-- Makes room for the blocks that are new, which await nothing yet. -/
def widen (classes : Nat) (r : Refinement) : Refinement :=
  let missing := r.partition.blocks.size * classes - r.pending.size
  { r with pending := r.pending ++ Array.replicate missing false }

/-- Schedules, for each class, the part of a split block that has to serve as splitter. -/
def enqueueSplit (classes : Nat) (r : Refinement) (split : Nat × Nat) : Refinement :=
  (List.range classes).foldl
    (fun r c =>
      let chosen :=
        if r.isPending classes (split.1, c) then split.2
        else if r.partition.size split.2 ≤ r.partition.size split.1 then split.2
        else split.1
      r.enqueue classes (chosen, c))
    (r.widen classes)

/-- Splits every block by which of its elements lead into the splitter. -/
def serve (sources : Sources) (r : Refinement) (splitter : Nat × Nat) : Refinement :=
  let leading := (r.partition.members splitter.1).flatMap (sources.into · splitter.2)
  let (splits, partition) := (r.partition.markAll leading).split
  splits.foldl (enqueueSplit sources.classes)
    { r with
      partition := partition
      next := r.next + 1
      pending := r.pending.setIfInBounds (splitter.1 * sources.classes + splitter.2) false }

def run (sources : Sources) : (fuel : Nat) → Refinement → Refinement
  | fuel + 1, r =>
    match r.schedule[r.next]? with
    | some splitter => run sources fuel (r.serve sources splitter)
    | none => r
  | 0, r => r

/-- Accepting states apart from all others, and every class pending for the smaller of the two. -/
def start (classes : Nat) (a : Automaton) : Refinement :=
  let (_, partition) := ((Partition.whole (a.size + 1)).markAll a.accepting).split
  let smaller := if partition.size 0 ≤ partition.size 1 then 0 else 1
  let idle : Refinement :=
    ⟨partition, #[], 0, Array.replicate (partition.blocks.size * classes) false⟩
  if partition.blocks.size = 2 then
    (List.range classes).foldl (fun r c => r.post classes (smaller, c)) idle
  else idle

end Refinement

namespace Automaton

/--
The coarsest partition of the states and the sink that no class of symbols splits. A class is
scheduled once at the start and once for each split, and there are at most as many splits as states.
-/
def refine (a : Automaton) : Partition :=
  let sources := a.classSources
  (Refinement.run sources (sources.classes * (a.size + 2) + 1)
    (Refinement.start sources.classes a)).partition

/-- A block moves as its first member does. -/
def blockRow (a : Automaton) (p : Partition) (b : Nat) : Row Nat Interval :=
  let s := a.state ((p.members b).headD 0)
  ⟨s.accept, s.transitions.map fun t => (t.interval, p.blockOf t.target)⟩

/-- The automaton over the blocks of `p`. -/
def quotient (a : Automaton) (p : Partition) : Automaton :=
  (exploreAll compare p.blocks.size (a.blockRow p) [p.blockOf a.initial]).toJoined

/-- The least deterministic automaton with the language of `a`. -/
def minimizeWith (limits : Limits) (a : Automaton) : Build Automaton := do
  if a.minimal then return a
  let dfa := (← a.determinizeWith limits).trim
  if dfa.accepting.isEmpty then return empty
  let result := (dfa.quotient dfa.refine).markMinimal.setSingleton a.singleton
  report (.minimized dfa.size result.size)
  return result

def minimize (a : Automaton) : Journal Event Automaton := (a.minimizeWith {}).getD empty

end Automaton

end IntervalAutomata
