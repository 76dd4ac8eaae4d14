import IntervalAutomata.Binary.Word

/-!
The first 64 bytes of a stored automaton: nine words and 28 reserved bytes. Reading a header never
fails and loses nothing, so reading and writing are inverse to each other; whether the words make
sense is for the reader of the whole module to say.
-/

namespace IntervalAutomata.Binary

def headerSize : Nat := 64
def transitionSize : Nat := 12

/-- The bytes of `RGMA`. -/
def magic : UInt32 := wordOf 0x52 0x47 0x4D 0x41
def version : UInt32 := 1

def deterministicFlag : UInt32 := 1
def minimalFlag : UInt32 := 2
def singletonFlag : UInt32 := 4
def knownFlags : UInt32 := 7

/-- A checksum of some bytes. Writing and reading a module do not depend on which one it is. -/
abbrev Hash := List UInt8 → UInt32

structure Header where
  magic : UInt32 := Binary.magic
  version : UInt32 := Binary.version
  /-- Over everything behind the header. -/
  checksum : UInt32 := 0
  /-- In bytes, header included. -/
  totalSize : UInt32 := 0
  stateCount : UInt32 := 0
  transitionCount : UInt32 := 0
  initial : UInt32 := 0
  flags : UInt32 := 0
  /-- In bytes, without padding. -/
  singletonLength : UInt32 := 0
  reserved : Vector UInt8 28 := .replicate 28 0
deriving DecidableEq

namespace Header

def wordAt (bytes : List UInt8) (offset : Nat) : UInt32 :=
  wordOf (bytes.getD offset 0) (bytes.getD (offset + 1) 0) (bytes.getD (offset + 2) 0)
    (bytes.getD (offset + 3) 0)

/-- Missing bytes count as zero. -/
def ofBytes (bytes : List UInt8) : Header where
  magic := wordAt bytes 0
  version := wordAt bytes 4
  checksum := wordAt bytes 8
  totalSize := wordAt bytes 12
  stateCount := wordAt bytes 16
  transitionCount := wordAt bytes 20
  initial := wordAt bytes 24
  flags := wordAt bytes 28
  singletonLength := wordAt bytes 32
  reserved := .ofFn fun i => bytes.getD (36 + i) 0

def toBytes (h : Header) : List UInt8 :=
  wordBytes h.magic ++ wordBytes h.version ++ wordBytes h.checksum ++ wordBytes h.totalSize ++
    wordBytes h.stateCount ++ wordBytes h.transitionCount ++ wordBytes h.initial ++
    wordBytes h.flags ++ wordBytes h.singletonLength ++ h.reserved.toList

def hasMagic (h : Header) : Bool := h.magic == Binary.magic

def hasVersion (h : Header) : Bool := h.version == Binary.version

def hasKnownFlags (h : Header) : Bool := h.flags &&& ~~~ knownFlags == 0

def isDeterministic (h : Header) : Bool := h.flags &&& deterministicFlag != 0

def isMinimal (h : Header) : Bool := h.flags &&& minimalFlag != 0

def hasSingleton (h : Header) : Bool := h.flags &&& singletonFlag != 0

end Header

end IntervalAutomata.Binary
