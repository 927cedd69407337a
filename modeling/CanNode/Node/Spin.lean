import CanNode.Node.Basic

/-!
# The pump

A node is driven by calls of `Node.spin`, each of which runs one receive phase and then one
transmit phase.

The receive phase feeds the frames that are queued when it starts to the engine, one after the
other.  A completed transfer goes to its receiver, and its block back to the heap.  Frames that
come while the phase runs wait for the next one.

The transmit phase drains the engine's queue from its head.  A frame past its deadline is dropped;
any other is offered to the transmitter, and the phase ends when one is refused.
-/

namespace CanNode

def defaultTransmitTimeout : Micros := 1000000

namespace Node

variable {σ κ ρ α τ : Type}

/-! ## The receive phase -/

/-- Hand a completed transfer to its receiver, if there is one, and give its block back. -/
def deliver [Receiver ρ (Shared α)] (node : Node σ κ ρ α) (transfer : Transfer) :
    Except Fault (Node σ κ ρ α) := do
  let delivery : Delivery := { heap := node.heap, transfer }
  let (handled, shared) ← node.registry.dispatch delivery node.shared
  let heap ← delivery.release
  let stats := { node.stats with transfersReceived := node.stats.transfersReceived + 1 }
  let stats :=
    if handled then { stats with dispatched := stats.dispatched + 1 }
    else { stats with unhandled := stats.unhandled + 1 }
  return { node with heap, shared, stats }

def process [Engine σ] [Receiver ρ (Shared α)] (node : Node σ κ ρ α)
    (frame : ReceivedFrame) : Except Fault (Node σ κ ρ α) := do
  let stats := { node.stats with framesReceived := node.stats.framesReceived + 1 }
  let (outcome, engine, heap) ← Engine.accept frame node.engine node.heap
  let node := { node with engine, heap, stats }
  match outcome with
  | .complete transfer => node.deliver transfer
  | .fragment => return node
  | .rejected => return { node with stats := { stats with rejected := stats.rejected + 1 } }
  | .outOfMemory =>
      return { node with
        stats := { stats with receiveOutOfMemory := stats.receiveOutOfMemory + 1 } }

/-- Feed the next `count` frames of the receive queue to the engine, or fewer if it runs out. -/
def processQueued [Engine σ] [Receiver ρ (Shared α)] (node : Node σ κ ρ α) :
    Nat → Except Fault (Node σ κ ρ α)
  | 0 => .ok node
  | count + 1 =>
      match node.shared.queue.dequeue with
      | (.error _, _) => .ok node
      | (.ok frame, queue) => do
          let node ← { node with shared := { node.shared with queue } }.process frame
          node.processQueued count

def receivePhase [Engine σ] [Receiver ρ (Shared α)] (node : Node σ κ ρ α) :
    Except Fault (Node σ κ ρ α) :=
  node.processQueued node.shared.queue.length

/-! ## The transmit phase -/

/-- Queue a transfer that may be sent for `timeout` from now on.  The answer is the number of
its frames. -/
def enqueue [Engine σ] [Clock κ] (node : Node σ κ ρ α) (timeout : Micros)
    (metadata : Metadata) (payload : Bytes) :
    Except Fault (Except EnqueueError Nat × Node σ κ ρ α) := do
  let (time, node) := node.now
  let (answer, engine, heap) ←
    Engine.push (time.after timeout) metadata payload node.engine node.heap
  let node := { node with engine, heap }
  match answer with
  | .ok frames =>
      return (.ok frames, { node with stats := { node.stats with
        framesEnqueued := node.stats.framesEnqueued + UInt32.ofNat frames } })
  | .error error =>
      return (.error (.ofEngine error), { node with stats := { node.stats with
        enqueueFailures := node.stats.enqueueFailures + 1 } })

/-- Take the head out of the engine's queue and give its block back.  The answer says whether
there was one. -/
def retireHead [Engine σ] (node : Node σ κ ρ α) :
    Except Fault (Bool × Node σ κ ρ α) :=
  match Engine.pop node.engine with
  | (none, engine) => .ok (false, { node with engine })
  | (some frame, engine) => do
      let heap ← node.heap.free frame.payload
      return (true, { node with engine, heap })

def countExpired (node : Node σ κ ρ α) : Node σ κ ρ α :=
  { node with stats := { node.stats with expired := node.stats.expired + 1 } }

def countSent (node : Node σ κ ρ α) : Node σ κ ρ α :=
  { node with stats := { node.stats with sent := node.stats.sent + 1 } }

/-- Drain the engine's queue, looking at its head at most `budget` times.  The clock is read
before every look. -/
def drain [Engine σ] [Clock κ] [Transmitter τ] (node : Node σ κ ρ α) (transmitter : τ) :
    Nat → Except Fault (Node σ κ ρ α × τ)
  | 0 => .error .endlessQueue
  | budget + 1 =>
      let (time, node) := node.now
      match Engine.peek node.engine with
      | none => .ok (node, transmitter)
      | some head =>
          if head.deadline < time then do
            let (released, node) ← node.retireHead
            if released then
              node.countExpired.drain transmitter budget
            else
              return (node, transmitter)
          else do
            let payload ← node.heap.read head.payload
            let (accepted, transmitter) :=
              Transmitter.transmit ⟨head.id, payload, head.deadline⟩ transmitter
            if accepted then
              let (released, node) ← node.retireHead
              if released then
                node.countSent.drain transmitter budget
              else
                return (node, transmitter)
            else
              return (node, transmitter)

def transmitPhase [Engine σ] [Clock κ] [Transmitter τ] (node : Node σ κ ρ α)
    (transmitter : τ) : Except Fault (Node σ κ ρ α × τ) :=
  node.drain transmitter (Engine.pending node.engine + 1)

/-! ## Both phases -/

def spin [Engine σ] [Clock κ] [Receiver ρ (Shared α)] [Transmitter τ]
    (node : Node σ κ ρ α) (transmitter : τ) : Except Fault (Node σ κ ρ α × τ) := do
  let node ← node.receivePhase
  node.transmitPhase transmitter

end Node

end CanNode
