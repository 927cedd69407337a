import CanNode.Heap.Basic

/-!
# Bins of free fragments

Every free fragment is linked into the bin of its size class.  `Heap.link` puts a fragment in
front of its bin, `Heap.unlink` takes one out wherever it stands.
-/

namespace CanNode

namespace Heap

def binOf (heap : Heap) (fragment : Nat) : Except Fault (Fin binCount) := do
  let size ← heap.get fragment .size
  match binOf? size with
  | none => throw (.noBin size)
  | some bin => return bin

/-- Let a bin start with another fragment.  A bin that starts with none is no longer occupied. -/
def setHead (heap : Heap) (bin : Fin binCount) (head : Option Nat) : Heap :=
  { heap with
    bins := heap.bins.set bin head bin.isLt
    occupied := if head.isNone then heap.occupied.unflag bin else heap.occupied }

/-- Put a free fragment in front of its bin. -/
def link (heap : Heap) (fragment : Nat) : Except Fault Heap := do
  let bin ← heap.binOf fragment
  let head := heap.bins.get bin
  let heap ← heap.setLink fragment .nextFree head
  let heap ← heap.setLink fragment .prevFree none
  let heap ← heap.setLinkOf head .prevFree (some fragment)
  return { heap with
    bins := heap.bins.set bin (some fragment) bin.isLt
    occupied := heap.occupied.flag bin }

def unlink (heap : Heap) (fragment : Nat) : Except Fault Heap := do
  let bin ← heap.binOf fragment
  let next ← heap.getLink fragment .nextFree
  let prev ← heap.getLink fragment .prevFree
  let heap ← heap.setLinkOf next .prevFree prev
  match prev with
  | some before => heap.setLink before .nextFree next
  | none => return heap.setHead bin next

end Heap

end CanNode
