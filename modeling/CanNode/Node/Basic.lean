import CanNode.Clock
import CanNode.ReceiveQueue
import CanNode.Registry

/-!
# Nodes

A node owns a heap, an engine, a clock and a registry of receivers, and moves frames and
transfers between them.  Frames reach it through a receive queue that it shares with the bus
and with the receivers.
-/

namespace CanNode

inductive StartError where
  | heap (error : ArenaError)
  | config (error : ConfigError)
deriving DecidableEq

def StartError.message : StartError → String
  | .heap error => error.message
  | .config error => error.message

inductive EnqueueError where
  | outOfMemory
  | queueFull
  | invalidArgument
deriving DecidableEq

namespace EnqueueError

def ofEngine : EngineError → EnqueueError
  | .outOfMemory => .outOfMemory
  | .queueFull => .queueFull
  | .invalidArgument => .invalidArgument

def message : EnqueueError → String
  | .outOfMemory => "Out of memory"
  | .queueFull => "Transmit queue full"
  | .invalidArgument => "Invalid transfer"

end EnqueueError

/-- What a receiver can act on: the receive queue and the state of the application. -/
structure Shared (α : Type) where
  queue : ReceiveQueue
  app : α

structure NodeStats where
  framesReceived : UInt32 := 0
  transfersReceived : UInt32 := 0
  dispatched : UInt32 := 0
  unhandled : UInt32 := 0
  rejected : UInt32 := 0
  receiveOutOfMemory : UInt32 := 0
  framesEnqueued : UInt32 := 0
  enqueueFailures : UInt32 := 0
  sent : UInt32 := 0
  expired : UInt32 := 0
deriving DecidableEq

/-- A node with an engine `σ`, a clock `κ`, receivers `ρ` and application state `α`. -/
structure Node (σ κ ρ α : Type) where
  heap : Heap
  engine : σ
  clock : κ
  shared : Shared α
  registry : Registry ρ
  config : NodeConfig
  stats : NodeStats

namespace Node

variable {σ κ ρ α : Type}

/-! ## Setting up -/

/-- Whether a node can be set up with a queue, a configuration and an arena of this size.  The
frame width is checked before the size. -/
def check (queue : ReceiveQueue) (config : NodeConfig) (arenaSize : Nat) :
    Except StartError Unit :=
  if queue.mtu ≠ config.mtu then
    .error (.config (.mtuMismatch config.mtu.bytes queue.mtu.bytes))
  else
    match Heap.capacityFor arenaSize with
    | .error error => .error (.heap error)
    | .ok _ => .ok ()

def start [Engine σ] (engine : σ) (arena : Arena) (clock : κ) (shared : Shared α)
    (config : NodeConfig) (capacity : Nat) : Except StartError (Node σ κ ρ α) := do
  check shared.queue config arena.size
  match Heap.format arena with
  | .error error => throw (.heap error)
  | .ok heap =>
      return {
        heap
        engine := Engine.configure config engine
        clock
        shared
        registry := Registry.empty capacity
        config
        stats := {} }

/-! ## Subscriptions -/

/-- Register a receiver for the transfers of one kind on one port.  The answer is the receiver
that was registered before. -/
def subscribe [Engine σ] (node : Node σ κ ρ α) (topic : Topic)
    (params : SessionParams) (receiver : ρ) :
    Except SubscribeError (Option ρ) × Node σ κ ρ α :=
  let (answer, registry, engine) := node.registry.subscribe node.engine topic params receiver
  (answer, { node with registry, engine })

def subscribeMessage [Engine σ] (node : Node σ κ ρ α) (subject : PortId)
    (extent : Nat) (receiver : ρ) : Except SubscribeError (Option ρ) × Node σ κ ρ α :=
  node.subscribe (.message subject) { extent } receiver

def subscribeRequest [Engine σ] (node : Node σ κ ρ α) (service : PortId)
    (extent : Nat) (receiver : ρ) : Except SubscribeError (Option ρ) × Node σ κ ρ α :=
  node.subscribe (.request service) { extent } receiver

def subscribeResponse [Engine σ] (node : Node σ κ ρ α) (service : PortId)
    (extent : Nat) (receiver : ρ) : Except SubscribeError (Option ρ) × Node σ κ ρ α :=
  node.subscribe (.response service) { extent } receiver

/-- Remove a subscription.  The answer says whether there was one. -/
def unsubscribe [Engine σ] (node : Node σ κ ρ α) (topic : Topic) :
    Except Fault (Bool × Node σ κ ρ α) := do
  let (removed, registry, engine, heap) ← node.registry.unsubscribe node.engine node.heap topic
  return (removed, { node with registry, engine, heap })

def isSubscribed (node : Node σ κ ρ α) (topic : Topic) : Bool :=
  node.registry.contains topic

/-! ## Time -/

def now [Clock κ] (node : Node σ κ ρ α) : Micros × Node σ κ ρ α :=
  let (time, clock) := Clock.read node.clock
  (time, { node with clock })

def receive [Clock κ] (node : Node σ κ ρ α) (id : UInt32) (data : Bytes) :
    Except ReceiveError Unit × Node σ κ ρ α :=
  let (time, node) := node.now
  let (answer, queue) := node.shared.queue.receive id data time
  (answer, { node with shared := { node.shared with queue } })

end Node

end CanNode
