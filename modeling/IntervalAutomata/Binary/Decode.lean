import IntervalAutomata.Automaton.Sweep
import IntervalAutomata.Binary.Header
import IntervalAutomata.Report
import IntervalAutomata.Text.Numeral

/-!
Reading a stored automaton. The bytes may come from anywhere, so everything is checked in a fixed
order before it is used: identity, size and checksum of the module, the shape that the header claims,
each transition, and last the marks against the automaton that has been read. The section sizes must
add up to the size of the body, so no section can reach past its end.
-/

namespace IntervalAutomata.Binary

inductive Corruption where
  | unknownFlags
  | sectionSizes
  | noStates
  | initialOutOfRange
  | unclaimedSingleton
  | firstOffset
  | offsetsNotMonotone
  | invalidInterval
  | targetOutOfRange
  | transitionsNotSorted
  | transitionCount
  | deterministicFlag
  | minimalNotDeterministic
  | minimalNotTrimmed
  | singletonNotText
  | singletonDisagrees
deriving DecidableEq

def Corruption.message : Corruption → String
  | unknownFlags => "unknown flag bits"
  | sectionSizes => "section sizes disagree with total size"
  | noStates => "no states"
  | initialOutOfRange => "initial state out of range"
  | unclaimedSingleton => "singleton bytes without singleton flag"
  | firstOffset => "first offset is not zero"
  | offsetsNotMonotone => "transition offsets not monotone"
  | invalidInterval => "invalid transition interval"
  | targetOutOfRange => "transition target out of range"
  | transitionsNotSorted => "transitions not sorted"
  | transitionCount => "transition count disagrees with offsets"
  | deterministicFlag => "deterministic flag disagrees with transitions"
  | minimalNotDeterministic => "minimal flag on nondeterministic automaton"
  | minimalNotTrimmed => "minimal flag on automaton with useless states"
  | singletonNotText => "singleton is not UTF-8"
  | singletonDisagrees => "singleton disagrees with transitions"

inductive DecodeError where
  | invalidMagic
  | unsupportedVersion (version : UInt32)
  | tooSmall (size : Nat)
  | sizeMismatch (claimed : UInt32) (actual : Nat)
  | checksumMismatch (claimed found : UInt32)
  | corrupt (cause : Corruption)
deriving DecidableEq

/-- A word as `0x` and eight hexadecimal digits. -/
def wordText (w : UInt32) : String :=
  "0x" ++ String.ofList (Numeral.padLeft 8 '0' (Numeral.hex w.toNat))

def DecodeError.message : DecodeError → String
  | invalidMagic => "invalid magic: expected RGMA"
  | unsupportedVersion found => s!"unsupported version: {found} (expected {version})"
  | tooSmall size => s!"file too small: {size} bytes (minimum 64)"
  | sizeMismatch claimed actual => s!"size mismatch: header says {claimed} bytes, got {actual}"
  | checksumMismatch claimed found =>
    "checksum mismatch: header says " ++ wordText claimed ++ ", body hashes to " ++ wordText found
  | corrupt cause => "corrupt module: " ++ cause.message

/-- Fails with `error` unless the condition holds. -/
def require (condition : Bool) (error : DecodeError) : Except DecodeError Unit :=
  if condition then .ok () else .error error

def acceptSize (h : Header) : Nat := alignUp ((h.stateCount.toNat + 7) / 8)

def offsetsSize (h : Header) : Nat := (h.stateCount.toNat + 1) * 4

def transitionsSize (h : Header) : Nat := h.transitionCount.toNat * transitionSize

/-- The size of the body that the counts of a header ask for. -/
def bodySize (h : Header) : Nat :=
  acceptSize h + offsetsSize h + transitionsSize h + alignUp h.singletonLength.toNat

/-- The accept bit of state `q`. -/
def acceptBit (bits : List UInt8) (q : Nat) : Bool := (bits.getD (q / 8) 0).toNat.testBit (q % 8)

/-- Three words at a time. -/
def transitionsOf : List UInt32 → List Transition
  | min :: max :: target :: rest =>
    ⟨⟨min.toNat, max.toNat⟩, target.toNat⟩ :: transitionsOf rest
  | _ => []

/-- Checks the transitions of one state, each against its predecessor. -/
def checkTransitions (states : Nat) (last : Option Transition) :
    List Transition → Except DecodeError Unit
  | [] => .ok ()
  | t :: rest => do
    require (t.interval.min ≤ t.interval.max && t.interval.max ≤ maxSymbol)
      (.corrupt .invalidInterval)
    require (t.target < states) (.corrupt .targetOutOfRange)
    require (last.all fun s => Transition.order s t == .lt) (.corrupt .transitionsNotSorted)
    checkTransitions states (some t) rest

/--
Deals the transitions out to the states, from state `q` on. `previous` is the offset of state `q` and
`remaining` holds the transitions from there on.
-/
def readStates (h : Header) (bits : List UInt8) (q previous : Nat) (remaining : List Transition) :
    List Nat → Except DecodeError (List State)
  | [] => do
    require (previous = h.transitionCount.toNat) (.corrupt .transitionCount)
    return []
  | stop :: offsets => do
    require (previous ≤ stop && stop ≤ h.transitionCount.toNat) (.corrupt .offsetsNotMonotone)
    let own := remaining.take (stop - previous)
    checkTransitions h.stateCount.toNat none own
    let rest ← readStates h bits (q + 1) stop (remaining.drop (stop - previous)) offsets
    return { accept := acceptBit bits q, transitions := own } :: rest

/-- Every state is reachable and live, or there is one state without accepting or moving. -/
def isTrimmed (a : Automaton) : Bool :=
  if a.size == 1 && a.accepting.isEmpty then a.transitionCount == 0
  else a.reachable.length == a.size && a.live.toList.all id

/--
Whether the live states of `current`, all reached by the text so far, accept the rest of the text and
nothing else. Another live way on, or acceptance on the way, would let in another text.
-/
def denotesFrom (a : Automaton) (live : Array Bool) (current : List Nat) : List Char → Bool
  | [] =>
    (current.all fun q => (a.transitions q).all fun t => !live.getD t.target false) &&
      current.any a.isAccepting
  | c :: cs =>
    (current.all fun q => !a.isAccepting q &&
      (a.transitions q).all fun t => !live.getD t.target false || t.interval == .single c.toNat) &&
    denotesFrom a live
      (ascending compare (current.flatMap fun q =>
        ((a.transitions q).filter fun t => live.getD t.target false).map (·.target))) cs

/-- The language is exactly `{text}`. -/
def denotesOnly (a : Automaton) (text : String) : Bool :=
  let live := a.live
  denotesFrom a live ([a.initial].filter fun q => live.getD q false) text.toList

/-- Restores the marks that the header claims, after checking them. -/
def readMarks (h : Header) (singleton : List UInt8) (a : Automaton) :
    Except DecodeError Automaton := do
  require (h.isDeterministic == a.deterministic) (.corrupt .deterministicFlag)
  require (!h.isMinimal || a.deterministic) (.corrupt .minimalNotDeterministic)
  require (!h.isMinimal || isTrimmed a) (.corrupt .minimalNotTrimmed)
  let marked := { a with minimal := h.isMinimal }
  if h.hasSingleton then
    match String.fromUTF8? (singleton.take h.singletonLength.toNat).toByteArray with
    | some text => do
      require (denotesOnly a text) (.corrupt .singletonDisagrees)
      return marked.setSingleton (some text)
    | none => throw (.corrupt .singletonNotText)
  else return marked

def readBody (h : Header) (body : List UInt8) : Except DecodeError Automaton := do
  require h.hasKnownFlags (.corrupt .unknownFlags)
  require (bodySize h = body.length) (.corrupt .sectionSizes)
  require (h.stateCount != 0) (.corrupt .noStates)
  require (h.initial < h.stateCount) (.corrupt .initialOutOfRange)
  require (h.hasSingleton || h.singletonLength == 0) (.corrupt .unclaimedSingleton)
  let (bits, body) := body.splitAt (acceptSize h)
  let (offsets, body) := body.splitAt (offsetsSize h)
  let (transitions, singleton) := body.splitAt (transitionsSize h)
  let offsets := (words offsets).map UInt32.toNat
  require (offsets.head? == some 0) (.corrupt .firstOffset)
  let states ← readStates h bits 0 0 (transitionsOf (words transitions)) offsets.tail
  readMarks h singleton (.ofStates states h.initial.toNat)

/-- The automaton that was stored, if the bytes hold one. -/
def decode (hash : Hash) (bytes : List UInt8) : Except DecodeError Automaton := do
  let h := Header.ofBytes bytes
  require (headerSize ≤ bytes.length) (.tooSmall bytes.length)
  require h.hasMagic .invalidMagic
  require h.hasVersion (.unsupportedVersion h.version)
  require (h.totalSize.toNat = bytes.length) (.sizeMismatch h.totalSize bytes.length)
  let body := bytes.drop headerSize
  let found := hash body
  require (found = h.checksum) (.checksumMismatch h.checksum found)
  readBody h body

/-- Decodes and reports what was found. -/
def load (hash : Hash) (bytes : List UInt8) : Journal Event (Except DecodeError Automaton) :=
  match decode hash bytes with
  | .ok a => ⟨.ok a, [.decoded a.size a.transitionCount]⟩
  | .error e => ⟨.error e, []⟩

end IntervalAutomata.Binary
