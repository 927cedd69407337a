import CanNode.Arena
import CanNode.Heap.BinMask
import CanNode.Heap.Usage
import CanNode.RecordText

/-!
# Heaps over an arena

A heap divides its arena into fragments.  Every fragment starts with a header of four 32-bit
words, kept in the arena itself, and a free fragment uses the two words after the header to
link itself into a bin:

| address from the fragment's start | word |
|---|---|
| 0 | next fragment in address order |
| 4 | previous fragment in address order |
| 8 | size of the fragment, header included |
| 12 | 1 when allocated, 0 when free |
| 16 | next fragment of the bin |
| 20 | previous fragment of the bin |

Fragments are named by the address they start at.  The largest word stands for a missing link.
The fragments of a bin have sizes of one power-of-two class, and a mask records which bins hold
any.  `Heap.format` makes one free fragment of a whole arena.
-/

namespace CanNode

/-! ## Blocks -/

/-- Bytes at the start of every fragment that are not handed out. -/
def headerSize : Nat := 16

/-- A region that a heap has handed out.  It lives behind the header of the fragment at `offset`. -/
structure Block where
  offset : Nat
  len : Nat
deriving DecidableEq

namespace Block

def start (block : Block) : Nat :=
  block.offset + headerSize

def isEmpty (block : Block) : Bool :=
  block.len == 0

def text (block : Block) : String :=
  RecordText.record "Block" [("offset", toString block.offset), ("len", toString block.len)]

end Block

/-! ## Layout -/

/-- The smallest fragment.  Every size is a multiple of it. -/
def minimumFragment : Nat := 32

/-- The largest word, which stands for a missing link. -/
def noLink : Nat := 0xFFFFFFFF

/-- The words of a fragment's header, and the two links of a free fragment. -/
inductive Field where
  | next
  | prev
  | size
  | used
  | nextFree
  | prevFree
deriving DecidableEq

def Field.offset : Field → Nat
  | .next => 0
  | .prev => 4
  | .size => 8
  | .used => 12
  | .nextFree => 16
  | .prevFree => 20

/-- A heap: the arena, the first fragment of every bin, the mask of occupied bins, and the
usage counters. -/
structure Heap where
  arena : Arena
  bins : Vector (Option Nat) binCount
  occupied : BinMask
  usage : Usage

inductive ArenaError where
  | tooSmall (size : Nat)
  | tooLarge (size : Nat)
deriving DecidableEq

def ArenaError.message : ArenaError → String
  | .tooSmall size => s!"Arena too small: {size} bytes"
  | .tooLarge size => s!"Arena too large: {size} bytes"

namespace Heap

/-- The bin for fragments of a size: the logarithm of the size in smallest fragments. -/
def binOf? (size : Nat) : Option (Fin binCount) :=
  if h : size / minimumFragment ≠ 0 ∧ (size / minimumFragment).log2 < binCount then
    some ⟨(size / minimumFragment).log2, h.2⟩
  else
    none

/-- Usable bytes of an arena: what remains when the size is rounded down to whole fragments. -/
def capacityFor (size : Nat) : Except ArenaError Nat :=
  if noLink < size then
    .error (.tooLarge size)
  else if size / minimumFragment * minimumFragment < minimumFragment then
    .error (.tooSmall size)
  else
    .ok (size / minimumFragment * minimumFragment)

def linkWord : Option Nat → Nat
  | none => noLink
  | some fragment => fragment

def wordLink (word : Nat) : Option Nat :=
  if word = noLink then none else some word

def format (arena : Arena) : Except ArenaError Heap := do
  let capacity ← capacityFor arena.size
  match binOf? capacity with
  | none => throw (.tooSmall arena.size)
  | some bin =>
      let header := [noLink, noLink, capacity, 0, noLink, noLink]
      return {
        arena := arena.overlay 0 (header.flatMap (Bytes.ofNat 4))
        bins := (Vector.replicate binCount none).set bin (some 0) bin.isLt
        occupied := BinMask.flag 0 bin
        usage := { capacity } }

/-! ## Header words -/

def get (heap : Heap) (fragment : Nat) (field : Field) : Except Fault Nat :=
  let address := fragment + field.offset
  if address + 4 ≤ heap.arena.size then
    .ok (heap.arena.word address)
  else
    .error (.outOfArena address 4)

def set (heap : Heap) (fragment : Nat) (field : Field) (value : Nat) : Except Fault Heap :=
  let address := fragment + field.offset
  if noLink < value then
    .error (.wordOverflow value)
  else if address + 4 ≤ heap.arena.size then
    .ok { heap with arena := heap.arena.setWord address value }
  else
    .error (.outOfArena address 4)

def getLink (heap : Heap) (fragment : Nat) (field : Field) : Except Fault (Option Nat) :=
  wordLink <$> heap.get fragment field

def setLink (heap : Heap) (fragment : Nat) (field : Field) (link : Option Nat) :
    Except Fault Heap :=
  heap.set fragment field (linkWord link)

def setLinkOf (heap : Heap) (target : Option Nat) (field : Field) (link : Option Nat) :
    Except Fault Heap :=
  match target with
  | none => .ok heap
  | some fragment => heap.setLink fragment field link

theorem get_of_fits {heap : Heap} {fragment : Nat} {field : Field}
    (hfit : fragment + field.offset + 4 ≤ heap.arena.size) :
    heap.get fragment field = .ok (heap.arena.word (fragment + field.offset)) :=
  if_pos hfit

theorem set_of_fits {heap : Heap} {fragment value : Nat} {field : Field}
    (hvalue : value ≤ noLink) (hfit : fragment + field.offset + 4 ≤ heap.arena.size) :
    heap.set fragment field value =
      .ok { heap with arena := heap.arena.setWord (fragment + field.offset) value } := by
  rw [set, if_neg (Nat.not_lt.mpr hvalue), if_pos hfit]

theorem wordLink_linkWord {link : Option Nat} (hlink : link ≠ some noLink) :
    wordLink (linkWord link) = link := by
  cases link with
  | none => rfl
  | some fragment =>
      have hne : fragment ≠ noLink := fun h => hlink (congrArg some h)
      exact if_neg hne

/-! ## Payload bytes -/

def read (heap : Heap) (block : Block) : Except Fault Bytes :=
  if block.start + block.len ≤ heap.arena.size then
    .ok (heap.arena.slice block.start block.len)
  else
    .error (.outOfArena block.start block.len)

/-- Store bytes in a block, from its byte `start` on. -/
def write (heap : Heap) (block : Block) (start : Nat) (values : Bytes) : Except Fault Heap :=
  if heap.arena.size < block.start + block.len then
    .error (.outOfArena block.start block.len)
  else if block.len < start + values.length then
    .error (.outOfBlock start values.length)
  else
    .ok { heap with arena := heap.arena.overlay (block.start + start) values }

end Heap

end CanNode
