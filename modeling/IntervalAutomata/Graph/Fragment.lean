import IntervalAutomata.Graph.Basic

/-!
Fragments for single symbols and automata, and the ways to combine fragments. A loop or a bypass never
goes through an operand's own entry or exit: it gets a branch node, so that edges into an entry or out
of an exit cannot leak from one round into another.
-/

namespace IntervalAutomata.Graph

/-- One symbol of `i`. -/
def interval (g : Graph) (i : Interval) : Fragment × Graph :=
  let entry := g.size
  let exit := g.size + 1
  (⟨entry, exit⟩, (g.addNode.addNode).addEdge entry i exit)

/-- The empty text alone. -/
def emptyString (g : Graph) : Fragment × Graph := (⟨g.size, g.size⟩, g.addNode)

/-- Nothing: the exit cannot be reached. -/
def empty (g : Graph) : Fragment × Graph := (⟨g.size, g.size + 1⟩, g.addNode.addNode)

/-- Leads from each exit to the next entry. -/
def link (g : Graph) (first : Fragment) : List Fragment → Graph
  | [] => g
  | next :: rest => (g.connect first.exit next.entry).link next rest

/-- One after the other. -/
def sequence (g : Graph) : List Fragment → Fragment × Graph
  | [] => g.emptyString
  | first :: rest => (⟨first.entry, (rest.getLastD first).exit⟩, g.link first rest)

/-- Any one of them, between a shared entry and a shared exit. -/
def alternation (g : Graph) : List Fragment → Fragment × Graph
  | [] => g.empty
  | [f] => (f, g)
  | fs =>
    let entry := g.size
    let exit := g.size + 1
    (⟨entry, exit⟩,
      fs.foldl (fun g f => (g.connect entry f.entry).connect f.exit exit) g.addNode.addNode)

/-- Through a branch node that is entry and turning point. -/
def zeroOrMore (g : Graph) (f : Fragment) : Fragment × Graph :=
  let branch := g.size
  let exit := g.size + 1
  (⟨branch, exit⟩,
    ((g.addNode.addNode.connect branch f.entry).connect branch exit).connect f.exit branch)

/-- Through a branch node behind `f`. -/
def oneOrMore (g : Graph) (f : Fragment) : Fragment × Graph :=
  let branch := g.size
  let exit := g.size + 1
  (⟨f.entry, exit⟩,
    ((g.addNode.addNode.connect f.exit branch).connect branch f.entry).connect branch exit)

/-- Around `f` or through it. -/
def optional (g : Graph) (f : Fragment) : Fragment × Graph :=
  let branch := g.size
  let exit := g.size + 1
  (⟨branch, exit⟩,
    ((g.addNode.addNode.connect branch f.entry).connect branch exit).connect f.exit exit)

/-- A node for each state of `a`, and an exit behind all accepting ones. -/
def embed (g : Graph) (a : Automaton) : Fragment × Graph :=
  let base := g.size
  let exit := base + a.size
  let copy (s : State) : Node :=
    { edges := s.transitions.map fun t => ⟨t.interval, base + t.target⟩
      successors := if s.accept then [exit] else [] }
  (⟨base + a.initial, exit⟩, ⟨g.nodes ++ a.states.map copy |>.push {}⟩)

end IntervalAutomata.Graph
