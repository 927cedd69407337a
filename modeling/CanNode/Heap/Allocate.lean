import CanNode.Heap.Bins

/-!
# Allocation

A request is rounded up to a power of two, header included.  Every fragment in a bin at or
above the class of that power is large enough, so the first fragment of the lowest such bin is
taken and the rest of it, if there is any, becomes a new free fragment.
-/

namespace CanNode

namespace Heap

/-- Size of the fragment that serves a request: the least power of two that holds the header
and `amount` bytes, for a positive amount. -/
def fragmentSize (amount : Nat) : Nat :=
  1 <<< ((amount + headerSize - 1).log2 + 1)

theorem le_fragmentSize {amount : Nat} (hpos : 0 < amount) :
    amount + headerSize ≤ fragmentSize amount := by
  have hlt : amount + headerSize - 1 < fragmentSize amount := by
    rw [fragmentSize, Nat.one_shiftLeft]
    exact Nat.lt_log2_self
  simp only [headerSize] at hlt ⊢
  omega

/-- Cut a fragment down to `size` bytes.  What is left becomes a free fragment behind it,
unless it is too small for one. -/
def split (heap : Heap) (fragment size : Nat) : Except Fault Heap := do
  let available ← heap.get fragment .size
  if available < size then
    throw (.fragmentTooSmall available size)
  else if available - size < minimumFragment then
    return heap
  else
    let tail := fragment + size
    let next ← heap.getLink fragment .next
    let heap ← heap.setLink tail .next next
    let heap ← heap.setLink tail .prev (some fragment)
    let heap ← heap.set tail .size (available - size)
    let heap ← heap.set tail .used 0
    let heap ← heap.setLinkOf next .prev (some tail)
    let heap ← heap.setLink fragment .next (some tail)
    let heap ← heap.set fragment .size size
    heap.link tail

/-- Hand out the first fragment of a bin, cut down to `size`, as a block of `amount` bytes. -/
def takeFrom (heap : Heap) (bin : Fin binCount) (size amount : Nat) :
    Except Fault (Block × Heap) := do
  match heap.bins.get bin with
  | none => throw (.emptyBin bin)
  | some fragment =>
      let heap ← heap.unlink fragment
      let heap ← heap.split fragment size
      let heap ← heap.set fragment .used 1
      let held ← heap.get fragment .size
      return (⟨fragment, amount % wordCount⟩, { heap with usage := heap.usage.acquire held })

def refuse (heap : Heap) : Heap :=
  { heap with usage := heap.usage.refuse }

/-- Reserve `amount` bytes.  There is no block for zero bytes, nor when no fragment is large
enough; only the latter counts as a refusal. -/
def allocate (heap : Heap) (amount : Nat) : Except Fault (Option Block × Heap) :=
  if amount = 0 then
    .ok (none, heap)
  else
    let heap := { heap with usage := heap.usage.request amount }
    let size := fragmentSize amount
    if heap.usage.capacity < size then
      .ok (none, heap.refuse)
    else
      match binOf? size with
      | none => .error (.noBin size)
      | some bound =>
          match heap.occupied.lowestFrom bound with
          | none => .ok (none, heap.refuse)
          | some bin => do
              let (block, heap) ← heap.takeFrom bin size amount
              return (some block, heap)

def store (heap : Heap) (values : Bytes) : Except Fault (Option Block × Heap) := do
  let (reserved, heap) ← heap.allocate values.length
  match reserved with
  | none => return (none, heap)
  | some block =>
      let heap ← heap.write block 0 values
      return (some block, heap)

end Heap

end CanNode
