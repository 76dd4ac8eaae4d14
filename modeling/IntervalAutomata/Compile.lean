import IntervalAutomata.Minimize
import IntervalAutomata.Operation.Product
import IntervalAutomata.Operation.Regular

/-!
From patterns to automata. Each pattern becomes a fragment of one build graph, which is flattened in
the end. Intersection and complement have no fragments of their own: their operands are compiled to
minimal automata, combined, and embedded.

Depth and bounds are checked for the whole pattern first, so a bad pattern fails before anything is
built. The operands are checked again when they are compiled, which cannot fail: a part is no deeper than
the whole and its bounds are among those of the whole.
-/

namespace IntervalAutomata

structure Compiler where
  limits : Limits := {}
  minimize : Bool := false

namespace Compiler

/-- What follows once the fragment of a pattern is built. -/
def finish (limits : Limits) (minimize : Bool) (p : Pattern) (f : Fragment) (g : Graph) :
    Build Automaton := do
  let flat ← g.flatten f
  limits.checkStates flat.size
  let known := match p.word? with
    | some word => flat.setSingleton (some (String.ofList word))
    | none => flat
  let result ← if minimize then known.minimizeWith limits else pure known
  report (.compiled p result.size result.transitionCount)
  return result

/-- Compiles a pattern whose fragment is `lowered` into a graph, after the checks. -/
def compileLowered (limits : Limits) (minimize : Bool) (p : Pattern)
    (lowered : Unit → Build (Fragment × Graph)) : Build Automaton := do
  limits.checkDepth p.depth
  if let some (min, max) := p.invertedBounds? then throw (.invertedBounds min max)
  let (f, g) ← lowered ()
  finish limits minimize p f g

/-- Adds the fragment of a pattern to a graph. -/
def lower (limits : Limits) (g : Graph) : Pattern → Build (Fragment × Graph)
  | .char value => return g.interval (.single value.toNat)
  | .range start stop => return match Interval.ofChars? start stop with
    | some i => g.interval i
    | none => g.empty
  | .alternation left right => do
    let (f, g) ← lower limits g left
    let (h, g) ← lower limits g right
    return g.alternation [f, h]
  | .concatenation left right => do
    let (f, g) ← lower limits g left
    let (h, g) ← lower limits g right
    return g.sequence [f, h]
  | .star inner => do
    let (f, g) ← lower limits g inner
    return g.zeroOrMore f
  | .plus inner => do
    let (f, g) ← lower limits g inner
    return g.oneOrMore f
  | .repeated inner min max => do
    let (f, g) ← lower limits g inner
    g.repetition limits f min max
  | .intersection left right => do
    let a ← compileLowered limits true left fun _ => lower limits {} left
    let b ← compileLowered limits true right fun _ => lower limits {} right
    return g.embed (← a.intersectionInStep limits b)
  | .complement inner => do
    let a ← compileLowered limits true inner fun _ => lower limits {} inner
    return g.embed (← a.complement)
  | .anyChar => return g.interval .full
  | .empty => return g.empty
  | .emptyString => return g.emptyString

/-- An automaton that accepts exactly the language of `p`. -/
def compile (c : Compiler) (p : Pattern) : Build Automaton :=
  compileLowered c.limits c.minimize p fun _ => lower c.limits {} p

end Compiler

def Automaton.ofPattern (p : Pattern) : Build Automaton := Compiler.compile {} p

end IntervalAutomata
