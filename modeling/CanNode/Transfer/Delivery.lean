import CanNode.Clock
import CanNode.Heap.Allocate
import CanNode.Heap.Free
import CanNode.Transfer.Metadata

/-!
# Deliveries

A completed transfer keeps its payload in a block of the heap.  A delivery lends the transfer
to receivers together with the heap, and `Delivery.release` gives the block back.
-/

namespace CanNode

/-- A completed transfer.  An empty one has no block. -/
structure Transfer where
  metadata : Metadata
  timestamp : Micros
  payload : Option Block
deriving DecidableEq

structure Delivery where
  heap : Heap
  transfer : Transfer

namespace Delivery

def metadata (delivery : Delivery) : Metadata :=
  delivery.transfer.metadata

def timestamp (delivery : Delivery) : Micros :=
  delivery.transfer.timestamp

def payload (delivery : Delivery) : Except Fault Bytes :=
  match delivery.transfer.payload with
  | none => .ok []
  | some block => delivery.heap.read block

def release (delivery : Delivery) : Except Fault Heap :=
  match delivery.transfer.payload with
  | none => .ok delivery.heap
  | some block => delivery.heap.free block

def text (delivery : Delivery) : Except Fault String := do
  let payload ← delivery.payload
  return RecordText.record "ReceivedTransfer"
    [("metadata", delivery.metadata.text),
     ("timestamp_us", toString delivery.timestamp.toNat),
     ("payload", RecordText.bytes payload)]

end Delivery

/-- Reserve a block for the data of a transfer and copy the data into it.  A transfer without
data needs no block.  There is no transfer when the heap refuses the block. -/
def Transfer.create (heap : Heap) (metadata : Metadata) (timestamp : Micros)
    (data : Bytes) : Except Fault (Option Transfer × Heap) :=
  if data.isEmpty then
    .ok (some ⟨metadata, timestamp, none⟩, heap)
  else do
    let (stored, heap) ← heap.store data
    match stored with
    | none => return (none, heap)
    | some block => return (some ⟨metadata, timestamp, some block⟩, heap)

end CanNode
