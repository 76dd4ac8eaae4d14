import IntervalAutomata.Binary.Decode

/-!
Reading a stored automaton with everything spelled out that could stop the program. A subscript or a
slice has to stay in range, a sum or a product has to fit a machine word of 64 bits, an assertion has
to hold, a cursor has to stay in its section and a sweep has to come to its end. Anything else is a
fault, which unlike an error cannot be reported. The automaton is built by adding states and transitions
one at a time, as the sections are read.
-/

namespace IntervalAutomata.Binary

inductive Fault where
  | outOfRange
  | overflow
  | assertion
  | pastEnd
  | endless
deriving DecidableEq

/-- A computation that ends in a fault, in an error that is reported, or in a value. -/
abbrev Guarded := ExceptT DecodeError (Except Fault)

namespace Guarded

variable {α σ : Type}

def fault (f : Fault) : Guarded α := ExceptT.mk (.error f)

/-- Without a fault. -/
def report (x : Except DecodeError α) : Guarded α := ExceptT.mk (.ok x)

def ensure (condition : Bool) (f : Fault) : Guarded Unit := if condition then return () else fault f

/-! Numbers -/

/-- What fits a machine word is less than this. -/
def wordLimit : Nat := 0x10000000000000000

def add (m n : Nat) : Guarded Nat := do
  ensure (m + n < wordLimit) .overflow
  return m + n

def mul (m n : Nat) : Guarded Nat := do
  ensure (m * n < wordLimit) .overflow
  return m * n

def add? (m n : Nat) : Option Nat := if m + n < wordLimit then some (m + n) else none

def mul? (m n : Nat) : Option Nat := if m * n < wordLimit then some (m * n) else none

/-- The quotient, rounded up. -/
def ceilDiv (m n : Nat) : Guarded Nat := if m % n = 0 then return m / n else add (m / n) 1

def alignUp (n : Nat) : Guarded Nat := do mul (← ceilDiv n sectionAlign) sectionAlign

/-! Lists -/

def get (xs : List α) (i : Nat) : Guarded α :=
  match xs[i]? with
  | some x => return x
  | none => fault .outOfRange

def set (xs : List α) (i : Nat) (x : α) : Guarded (List α) := do
  ensure (i < xs.length) .outOfRange
  return xs.set i x

/-- The entries from `start` up to `stop`. -/
def slice (xs : List α) (start stop : Nat) : Guarded (List α) := do
  ensure (start ≤ stop && stop ≤ xs.length) .outOfRange
  return (xs.take stop).drop start

/-- Takes the given number of steps, with the numbers from `i` on. -/
def loop (step : Nat → σ → Guarded σ) : (rounds i : Nat) → σ → Guarded σ
  | 0, _, s => return s
  | rounds + 1, i, s => do loop step rounds (i + 1) (← step i s)

/-! Bytes -/

def word (bytes : List UInt8) : Guarded UInt32 := do
  return wordOf (← get bytes 0) (← get bytes 1) (← get bytes 2) (← get bytes 3)

def header (bytes : List UInt8) : Guarded Header := do
  let wordAt (offset : Nat) : Guarded UInt32 := do
    return wordOf (← get bytes offset) (← get bytes (offset + 1)) (← get bytes (offset + 2))
      (← get bytes (offset + 3))
  let reserved ← slice bytes 36 64
  ensure (reserved.length = 28) .assertion
  return {
    magic := ← wordAt 0
    version := ← wordAt 4
    checksum := ← wordAt 8
    totalSize := ← wordAt 12
    stateCount := ← wordAt 16
    transitionCount := ← wordAt 20
    initial := ← wordAt 24
    flags := ← wordAt 28
    singletonLength := ← wordAt 32
    reserved := .ofFn fun i => reserved.getD i 0 }

/-- Where reading goes on in a section. -/
structure Cursor where
  bytes : List UInt8
  position : Nat := 0

namespace Cursor

def take (c : Cursor) (size : Nat) : Guarded (List UInt8 × Cursor) :=
  match (add? c.position size).filter (· ≤ c.bytes.length) with
  | some stop => do return (← slice c.bytes c.position stop, { c with position := stop })
  | none => fault .pastEnd

def word (c : Cursor) : Guarded (UInt32 × Cursor) := do
  let (bytes, c) ← c.take 4
  return (← Guarded.word bytes, c)

def wordAt (c : Cursor) (index : Nat) : Guarded UInt32 := do
  let start ← mul index 4
  let stop ← add start 4
  ensure (stop ≤ c.bytes.length) .pastEnd
  Guarded.word ((c.bytes.take stop).drop start)

end Cursor

def acceptSize (h : Header) : Guarded Nat := do alignUp (← ceilDiv h.stateCount.toNat 8)

def offsetsSize (h : Header) : Guarded Nat := do mul (← add h.stateCount.toNat 1) 4

def transitionsSize (h : Header) : Guarded Nat := mul h.transitionCount.toNat transitionSize

/-- The size that a header asks for, unless it does not fit a machine word. -/
def bodySize (h : Header) : Guarded (Option Nat) := do
  let accepts ← acceptSize h
  let some slots := add? h.stateCount.toNat 1 | return none
  let some offsets := mul? slots 4 | return none
  let some transitions := mul? h.transitionCount.toNat transitionSize | return none
  let singleton ← alignUp h.singletonLength.toNat
  let some size := add? accepts offsets | return none
  let some size := add? size transitions | return none
  return add? size singleton

/-! States -/

/-- State `q` with its accept bit. The first state is there from the beginning. -/
def addState (accepts : List UInt8) (q : Nat) (a : Automaton) : Guarded Automaton := do
  let byte ← get accepts (q / 8)
  ensure (q % 8 < 8) .overflow
  let accept := byte.toNat.testBit (q % 8)
  if q = 0 then
    ensure (0 < a.size) .outOfRange
    return a.setAccept 0 accept
  else return a.addState accept

/-- Looks at the entry before the place of the new one and moves those behind it. -/
def addTransition (a : Automaton) (source : Nat) (t : Transition) : Guarded Automaton := do
  ensure (t.target < a.size) .assertion
  let list := (← get a.states.toList source).transitions
  if list.contains t then return a
  else
    let place := (list.takeWhile fun s => Transition.order s t == .lt).length
    if a.deterministic && 0 < place then let _ ← get list (place - 1)
    ensure (place ≤ list.length) .outOfRange
    return a.addTransition source t.interval t.target

/-- The transitions still to be read, the one read last, and what has been built. -/
structure Records where
  cursor : Cursor
  last : Option Transition
  automaton : Automaton

/-- Reads a transition of state `q`. -/
def readTransition (h : Header) (q : Nat) (_ : Nat) (r : Records) : Guarded Records := do
  let (min, cursor) ← r.cursor.word
  let (max, cursor) ← cursor.word
  let (target, cursor) ← cursor.word
  let t : Transition := ⟨⟨min.toNat, max.toNat⟩, target.toNat⟩
  report <| require (t.interval.min ≤ t.interval.max && t.interval.max ≤ maxSymbol)
    (.corrupt .invalidInterval)
  report <| require (t.target < h.stateCount.toNat) (.corrupt .targetOutOfRange)
  report <| require (r.last.all fun s => Transition.order s t == .lt) (.corrupt .transitionsNotSorted)
  ensure (t.interval.min ≤ t.interval.max) .assertion
  return ⟨cursor, some t, ← addTransition r.automaton q t⟩

/-- The offset of the next state, the transitions still to be read, and what has been built. -/
structure Progress where
  previous : Nat
  cursor : Cursor
  automaton : Automaton

/-- Reads the transitions of state `q`. -/
def readState (h : Header) (offsets : Cursor) (q : Nat) (p : Progress) : Guarded Progress := do
  let stop := (← offsets.wordAt (← add q 1)).toNat
  report <| require (p.previous ≤ stop && stop ≤ h.transitionCount.toNat)
    (.corrupt .offsetsNotMonotone)
  let r ← loop (readTransition h q) (stop - p.previous) 0 ⟨p.cursor, none, p.automaton⟩
  return ⟨stop, r.cursor, r.automaton⟩

/-! Sweeps -/

/-- What has been seen, what waits to be expanded, and what has been expanded. -/
structure Sweep where
  seen : List Bool
  waiting : List Nat
  expanded : List Nat := []

/-- Lets `q` wait unless it has been seen. -/
def enter (wait : Nat → List Nat → List Nat) (s : Sweep) (q : Nat) : Guarded Sweep := do
  if ← get s.seen q then return s
  else return { s with seen := ← set s.seen q true, waiting := wait q s.waiting }

/-- Expands what waits until nothing does, which the fuel has to suffice for. -/
def sweep (wait : Nat → List Nat → List Nat) (row : Nat → Guarded (List Nat)) :
    (fuel : Nat) → Sweep → Guarded Sweep
  | 0, s => do
    ensure s.waiting.isEmpty .endless
    return s
  | fuel + 1, s =>
    match s.waiting with
    | [] => return s
    | q :: waiting => do
      let s := { s with waiting, expanded := s.expanded ++ [q] }
      sweep wait row fuel (← (← row q).foldlM (enter wait) s)

def targets (a : Automaton) (q : Nat) : Guarded (List Nat) := do
  return (← get a.states.toList q).transitions.map (·.target)

/-- Reachable states, first come, first served. -/
def reachable (a : Automaton) : Guarded (List Nat) := do
  let seen ← set (.replicate a.size false) a.initial true
  let s ← sweep (fun q waiting => waiting ++ [q]) (targets a) a.size ⟨seen, [a.initial], []⟩
  return s.expanded

/-- Adds `source` to the row of each target. -/
def addSource (rows : List (List Nat)) (entry : State × Nat) : Guarded (List (List Nat)) :=
  entry.1.transitions.foldlM (fun rows t => do set rows t.target ((← get rows t.target) ++ [entry.2]))
    rows

def predecessors (a : Automaton) : Guarded (List (List Nat)) :=
  a.states.toList.zipIdx.foldlM addSource (.replicate a.size [])

/-- Live states, last come, first served. -/
def live (a : Automaton) : Guarded (List Bool) := do
  let rows ← predecessors a
  let seen ← a.accepting.foldlM (fun seen q => set seen q true) (.replicate a.size false)
  let s ← sweep List.cons (get rows) a.size ⟨seen, a.accepting.reverse, []⟩
  return s.seen

def transitionCount (a : Automaton) : Guarded Nat :=
  a.states.toList.foldlM (fun count s => add count s.transitions.length) 0

def isTrimmed (a : Automaton) : Guarded Bool := do
  if a.size == 1 && a.accepting.isEmpty then return (← transitionCount a) == 0
  else if (← reachable a).length == a.size then return (← live a).all id
  else return false

/-! Singletons -/

/-- The live targets, unless one of them is reached by anything but `c`. -/
def follow (live : List Bool) (c : Symbol) : List Transition → Guarded (Option (List Nat))
  | [] => return some []
  | t :: rest => do
    if ← get live t.target then
      if t.interval == .single c then return (← follow live c rest).map (t.target :: ·)
      else return none
    else follow live c rest

def followAll (a : Automaton) (live : List Bool) (c : Symbol) :
    List Nat → Guarded (Option (List Nat))
  | [] => return some []
  | q :: current => do
    let s ← get a.states.toList q
    if s.accept then return none
    else
      match ← follow live c s.transitions with
      | some targets => return (← followAll a live c current).map (targets ++ ·)
      | none => return none

def leadsOn (live : List Bool) : List Transition → Guarded Bool
  | [] => return false
  | t :: rest => do
    if ← get live t.target then return true
    else leadsOn live rest

def endsIn (a : Automaton) (live : List Bool) (accepted : Bool) : List Nat → Guarded Bool
  | [] => return accepted
  | q :: current => do
    let s ← get a.states.toList q
    if ← leadsOn live s.transitions then return false
    else endsIn a live (accepted || s.accept) current

def denotesFrom (a : Automaton) (live : List Bool) : List Nat → List Char → Guarded Bool
  | current, [] => endsIn a live false current
  | current, c :: cs => do
    match ← followAll a live c.toNat current with
    | some next => denotesFrom a live (ascending compare next) cs
    | none => return false

def denotesOnly (a : Automaton) (text : String) : Guarded Bool := do
  let live ← live a
  let current := if ← get live a.initial then [a.initial] else []
  denotesFrom a live current text.toList

/-! Modules -/

def checkMinimal (h : Header) (a : Automaton) : Guarded Unit := do
  if h.isMinimal then
    report <| require a.deterministic (.corrupt .minimalNotDeterministic)
    report <| require (← isTrimmed a) (.corrupt .minimalNotTrimmed)
    ensure a.deterministic .assertion

def readMarks (h : Header) (singleton : List UInt8) (a : Automaton) : Guarded Automaton := do
  report <| require (h.isDeterministic == a.deterministic) (.corrupt .deterministicFlag)
  checkMinimal h a
  let marked := { a with minimal := h.isMinimal }
  if h.hasSingleton then
    match String.fromUTF8? (← slice singleton 0 h.singletonLength.toNat).toByteArray with
    | some text => do
      report <| require (← denotesOnly marked text) (.corrupt .singletonDisagrees)
      return marked.setSingleton (some text)
    | none => report (.error (.corrupt .singletonNotText))
  else return marked

/-- Reads the states from their sections. -/
def readStates (h : Header) (accepts offsets transitions : List UInt8) : Guarded Automaton := do
  let a ← loop (addState accepts) h.stateCount.toNat 0 .new
  ensure (h.initial.toNat < a.size) .assertion
  let first := (← Cursor.wordAt ⟨offsets, 0⟩ 0).toNat
  report <| require (first == 0) (.corrupt .firstOffset)
  let p ← loop (readState h ⟨offsets, 0⟩) h.stateCount.toNat 0
    ⟨first, ⟨transitions, 0⟩, a.setInitial h.initial.toNat⟩
  report <| require (p.previous = h.transitionCount.toNat) (.corrupt .transitionCount)
  return p.automaton

def readBody (h : Header) (body : List UInt8) : Guarded Automaton := do
  report <| require h.hasKnownFlags (.corrupt .unknownFlags)
  report <| require ((← bodySize h) = some body.length) (.corrupt .sectionSizes)
  report <| require (h.stateCount != 0) (.corrupt .noStates)
  report <| require (h.initial < h.stateCount) (.corrupt .initialOutOfRange)
  report <| require (h.hasSingleton || h.singletonLength == 0) (.corrupt .unclaimedSingleton)
  let (accepts, c) ← Cursor.take ⟨body, 0⟩ (← acceptSize h)
  let (offsets, c) ← c.take (← offsetsSize h)
  let (transitions, c) ← c.take (← transitionsSize h)
  let (singleton, _) ← c.take (← alignUp h.singletonLength.toNat)
  readMarks h singleton (← readStates h accepts offsets transitions)

def decode (hash : Hash) (bytes : List UInt8) : Guarded Automaton := do
  report <| require (headerSize ≤ bytes.length) (.tooSmall bytes.length)
  let h ← header (bytes.take headerSize)
  report <| require h.hasMagic .invalidMagic
  report <| require h.hasVersion (.unsupportedVersion h.version)
  report <| require (h.totalSize.toNat = bytes.length) (.sizeMismatch h.totalSize bytes.length)
  let body ← slice bytes headerSize bytes.length
  let found := hash body
  report <| require (found = h.checksum) (.checksumMismatch h.checksum found)
  readBody h body

end Guarded

end IntervalAutomata.Binary
