import IntervalAutomata.Automaton.Basic
import IntervalAutomata.Binary.Header

/-!
An automaton as bytes: header, accept bits, offsets, transitions, singleton. Offset `q` is the number
of transitions of the states before `q`, and a last one closes the list, so state `q` owns the
transitions between two neighbouring offsets.
-/

namespace IntervalAutomata.Binary

/-- Eight flags as one byte, the first one least significant. -/
def packByte (flag : Nat → Bool) : UInt8 :=
  UInt8.ofNat <| (List.range 8).foldr (fun i byte => if flag i then (1 <<< i) + byte else byte) 0

def acceptBytes (a : Automaton) : List UInt8 :=
  (List.range ((a.size + 7) / 8)).map fun j => packByte fun i => a.isAccepting (8 * j + i)

def offsetsFrom (offset : Nat) : List State → List Nat
  | [] => [offset]
  | s :: rest => offset :: offsetsFrom (offset + s.transitions.length) rest

def transitionBytes (t : Transition) : List UInt8 :=
  numberBytes t.interval.min ++ numberBytes t.interval.max ++ numberBytes t.target

def singletonBytes (a : Automaton) : List UInt8 :=
  match a.singleton with
  | some s => s.toUTF8.toList
  | none => []

def body (a : Automaton) : List UInt8 :=
  pad (acceptBytes a) ++ (offsetsFrom 0 a.states.toList).flatMap numberBytes ++
    a.states.toList.flatMap (fun s => s.transitions.flatMap transitionBytes) ++
    pad (singletonBytes a)

def flags (a : Automaton) : UInt32 :=
  (if a.deterministic then deterministicFlag else 0) |||
    (if a.minimal then minimalFlag else 0) |||
    (if a.singleton.isSome then singletonFlag else 0)

def header (hash : Hash) (a : Automaton) : Header :=
  let body := body a
  { checksum := hash body
    totalSize := UInt32.ofNat (headerSize + body.length)
    stateCount := UInt32.ofNat a.size
    transitionCount := UInt32.ofNat a.transitionCount
    initial := UInt32.ofNat a.initial
    flags := flags a
    singletonLength := UInt32.ofNat (singletonBytes a).length }

def encode (hash : Hash) (a : Automaton) : List UInt8 := (header hash a).toBytes ++ body a

end IntervalAutomata.Binary
