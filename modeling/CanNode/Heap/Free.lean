import CanNode.Heap.Bins

/-!
# Release

A fragment that is given back is merged with its free neighbours in address order, so no two
free fragments are ever adjacent.  A block whose fragment is not allocated is ignored.
-/

namespace CanNode

namespace Heap

def join (heap : Heap) (left right : Nat) : Except Fault Heap := do
  let after ← heap.getLink right .next
  let leftSize ← heap.get left .size
  let rightSize ← heap.get right .size
  let heap ← heap.set left .size (leftSize + rightSize)
  let heap ← heap.setLink left .next after
  heap.setLinkOf after .prev (some left)

/-- Merge a fragment with the free one before it.  The answer names the merged fragment. -/
def mergeBefore (heap : Heap) (fragment : Nat) : Except Fault (Nat × Heap) := do
  match ← heap.getLink fragment .prev with
  | none => return (fragment, heap)
  | some before =>
      if (← heap.get before .used) = 0 then
        let heap ← heap.unlink before
        let heap ← heap.join before fragment
        return (before, heap)
      else
        return (fragment, heap)

def mergeAfter (heap : Heap) (fragment : Nat) : Except Fault Heap := do
  match ← heap.getLink fragment .next with
  | none => return heap
  | some after =>
      if (← heap.get after .used) = 0 then
        let heap ← heap.unlink after
        heap.join fragment after
      else
        return heap

def release (heap : Heap) (fragment : Nat) : Except Fault Heap := do
  let size ← heap.get fragment .size
  let usage ← heap.usage.release size
  let heap ← { heap with usage }.set fragment .used 0
  let (merged, heap) ← heap.mergeBefore fragment
  let heap ← heap.mergeAfter merged
  heap.link merged

/-- Give a block back.  A block whose fragment lies outside the heap, or is not allocated, is
ignored. -/
def free (heap : Heap) (block : Block) : Except Fault Heap :=
  if heap.usage.capacity < block.start then
    .ok heap
  else do
    if (← heap.get block.offset .used) = 1 then
      heap.release block.offset
    else
      return heap

end Heap

end CanNode
