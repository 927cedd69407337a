import CanNode.BusFrame

/-!
# Receive queues

A queue of bounded length between the bus and the node, oldest frame first.  Frames leave in the
order they came.  A frame that cannot be stored is dropped and counted, and the queued ones stay.
-/

namespace CanNode

structure ReceiveQueue where
  mtu : Mtu
  capacity : Nat
  frames : List ReceivedFrame
  dropped : UInt32
  bounded : frames.length ≤ capacity

namespace ReceiveQueue

def empty (capacity : Nat) (mtu : Mtu) : ReceiveQueue :=
  { mtu, capacity, frames := [], dropped := 0, bounded := Nat.zero_le capacity }

def length (queue : ReceiveQueue) : Nat :=
  queue.frames.length

def isEmpty (queue : ReceiveQueue) : Bool :=
  queue.frames.isEmpty

def isFull (queue : ReceiveQueue) : Bool :=
  queue.length == queue.capacity

def drop (queue : ReceiveQueue) (error : ReceiveError) :
    Except ReceiveError Unit × ReceiveQueue :=
  (.error error, { queue with dropped := queue.dropped + 1 })

def enqueue (queue : ReceiveQueue) (frame : ReceivedFrame) :
    Except ReceiveError Unit × ReceiveQueue :=
  if frame.data.mtu ≠ queue.mtu then
    queue.drop (.mtuMismatch frame.data.mtu.bytes queue.mtu.bytes)
  else if queue.mtu.bytes < frame.data.bytes.length then
    queue.drop (.payloadTooLong frame.data.bytes.length queue.mtu.bytes)
  else if h : queue.length < queue.capacity then
    (.ok (), { queue with
      frames := queue.frames ++ [frame]
      bounded := by simpa [length, Nat.succ_le_iff] using h })
  else
    queue.drop .full

def tail (queue : ReceiveQueue) : ReceiveQueue :=
  { queue with
    frames := queue.frames.tail
    bounded := by
      rw [List.length_tail]
      exact Nat.le_trans (Nat.sub_le ..) queue.bounded }

def dequeue (queue : ReceiveQueue) : Except ReceiveError ReceivedFrame × ReceiveQueue :=
  match queue.frames.head? with
  | none => (.error .emptyBuffer, queue)
  | some frame => (.ok frame, queue.tail)

def receive (queue : ReceiveQueue) (id : UInt32) (data : Bytes) (timestamp : Micros) :
    Except ReceiveError Unit × ReceiveQueue :=
  match ReceivedFrame.ofRaw queue.mtu id data timestamp with
  | .ok frame => queue.enqueue frame
  | .error error => queue.drop error

def receiveBusFrame {φ : Type} [BusFrame φ] (queue : ReceiveQueue) (frame : φ)
    (timestamp : Micros) : Except ReceiveError Unit × ReceiveQueue :=
  match BusFrame.id frame with
  | .extended id =>
      if BusFrame.isRemote frame then
        queue.drop (.remoteFrame id)
      else
        queue.receive (UInt32.ofNat id) (BusFrame.data frame) timestamp
  | .standard id => queue.drop (.invalidIdentifier id)

end ReceiveQueue

/-! ## What a node sees of a queue -/

/-- A source of frames that a node can drain.  Unless said otherwise it is empty when it has no
length. -/
class FrameQueue (θ : Type) where
  mtu : θ → Mtu
  length : θ → Nat
  isEmpty : θ → Bool := fun queue => length queue == 0
  dequeue : θ → Except ReceiveError ReceivedFrame × θ
  receive : θ → UInt32 → Bytes → Micros → Except ReceiveError Unit × θ

instance : FrameQueue ReceiveQueue where
  mtu := ReceiveQueue.mtu
  length := ReceiveQueue.length
  dequeue := ReceiveQueue.dequeue
  receive := ReceiveQueue.receive

end CanNode
