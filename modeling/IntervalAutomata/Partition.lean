/-!
Refinable partitions of the numbers below some `n`. The elements stand in one array in which every
block is a stretch, with its marked elements in front. Marking swaps an element into the marked part
of its block; splitting makes the marked part of every block that has one a block of its own, unless
it is the whole block. Both move only the elements concerned.
-/

namespace IntervalAutomata

/-- The stretch from `first` up to `stop`, marked before `mid`. -/
structure Block where
  first : Nat
  mid : Nat
  stop : Nat
deriving DecidableEq, Inhabited

structure Partition where
  elements : Array Nat
  /-- The position of each element. -/
  location : Array Nat
  /-- The block of each element. -/
  owner : Array Nat
  blocks : Array Block
  /-- Blocks with marked elements, in the order in which they got them. -/
  touched : Array Nat
deriving DecidableEq

namespace Partition

/-- How many of the numbers below `len` get a position: positions are counted in 32 bits. -/
def placed (len : Nat) : Nat := (UInt32.ofNat len).toNat

/-- All numbers below `len` in one block; no block when there are none. -/
def new (len : Nat) : Partition where
  elements := Array.range (placed len)
  location := Array.range (placed len)
  owner := Array.replicate len 0
  blocks := if len = 0 then #[] else #[⟨0, 0, placed len⟩]
  touched := #[]

/-- The same when all numbers get a position, as the numbers of states do. -/
def whole (n : Nat) : Partition where
  elements := Array.range n
  location := Array.range n
  owner := Array.replicate n 0
  blocks := if n = 0 then #[] else #[⟨0, 0, n⟩]
  touched := #[]

def block (p : Partition) (b : Nat) : Block := p.blocks.getD b default

def blockOf (p : Partition) (x : Nat) : Nat := p.owner.getD x 0

def size (p : Partition) (b : Nat) : Nat := (p.block b).stop - (p.block b).first

def members (p : Partition) (b : Nat) : List Nat :=
  (p.elements.extract (p.block b).first (p.block b).stop).toList

/-- Only what has a block and a position can be marked. -/
def canMark (p : Partition) (x : Nat) : Bool := x < p.owner.size && x < p.location.size

/-- Marks an element for the next split. Marking it again changes nothing. -/
def mark (p : Partition) (x : Nat) : Partition :=
  let b := p.blockOf x
  let block := p.block b
  let here := p.location.getD x 0
  if here < block.mid then p
  else
    let other := p.elements.getD block.mid 0
    { elements := (p.elements.setIfInBounds here other).setIfInBounds block.mid x
      location := (p.location.setIfInBounds other here).setIfInBounds x block.mid
      owner := p.owner
      blocks := p.blocks.setIfInBounds b { block with mid := block.mid + 1 }
      touched := if block.mid = block.first then p.touched.push b else p.touched }

def markAll (p : Partition) (xs : List Nat) : Partition := xs.foldl mark p

/-- Separates the marked part of block `b`, and says which block it became. -/
def splitBlock (p : Partition) (b : Nat) : Option Nat × Partition :=
  let block := p.block b
  if block.mid = block.stop then
    (none, { p with blocks := p.blocks.setIfInBounds b { block with mid := block.first } })
  else
    let fresh := p.blocks.size
    let moved := (p.elements.extract block.first block.mid).toList
    (some fresh,
      { p with
        blocks := (p.blocks.setIfInBounds b ⟨block.mid, block.mid, block.stop⟩).push
          ⟨block.first, block.first, block.mid⟩
        owner := moved.foldl (fun owner x => owner.setIfInBounds x fresh) p.owner })

def splitBlocks (p : Partition) : List Nat → List (Nat × Nat) × Partition
  | [] => ([], p)
  | b :: bs =>
    let (fresh, p) := p.splitBlock b
    let (splits, p) := p.splitBlocks bs
    (fresh.toList.map (b, ·) ++ splits, p)

/-- Separates marked from unmarked elements and lists the old and the new block of each split. -/
def split (p : Partition) : List (Nat × Nat) × Partition :=
  { p with touched := #[] }.splitBlocks p.touched.toList

end Partition

end IntervalAutomata
