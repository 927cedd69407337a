import CanNode.Engine.Basic
import CanNode.Engine.Tail
import CanNode.Identifier.Fields

/-!
# Tail-byte engines

A small engine.  The last byte of every frame is its tail, and the bytes before it are data;
there is no checksum.  One transfer of several frames can be received at a time.  Frames wait
for transmission in the order of their identifiers, and those with the same identifier in the
order they were queued.
-/

namespace CanNode

/-- A transfer of several frames that is not complete yet. -/
structure Assembly where
  metadata : Metadata
  timestamp : Micros
  data : Bytes
deriving DecidableEq

namespace Assembly

def limit : Nat := 256

def continues (assembly : Assembly) (metadata : Metadata) (data : Bytes) : Bool :=
  assembly.metadata.port == metadata.port &&
    assembly.metadata.transferId == metadata.transferId &&
    assembly.data.length + data.length ≤ limit

end Assembly

/-- A topic that transfers are received for, and the number of bytes kept of each. -/
structure OpenSession where
  topic : Topic
  extent : Nat
deriving DecidableEq

structure TailByteEngine where
  nodeId : Option NodeId := none
  mtu : Mtu := default
  transmitCapacity : Nat := 0
  sessions : List OpenSession := []
  assembly : Option Assembly := none
  queue : List QueuedFrame := []
  acceptAll : Bool := false
  unsubscribed : Nat := 0

namespace TailByteEngine

def sessionLimit : Nat := 16

def transmitLimit : Nat := 64

def unlimited : Nat := 0xFFFFFFFFFFFFFFFF

/-! ## Sessions -/

/-- How many bytes to keep of a transfer, if it is to be received at all. -/
def extentFor (engine : TailByteEngine) (topic : Topic) : Option Nat :=
  match engine.sessions.find? (·.topic == topic) with
  | some session => some session.extent
  | none => if engine.acceptAll then some unlimited else none

def subscribe (engine : TailByteEngine) (topic : Topic) (extent : Nat) :
    Except EngineError Unit × TailByteEngine :=
  if engine.sessions.any (·.topic == topic) then
    (.ok (), { engine with
      sessions := engine.sessions.map fun session =>
        if session.topic == topic then { session with extent } else session })
  else if engine.sessions.length < sessionLimit then
    (.ok (), { engine with sessions := engine.sessions ++ [⟨topic, extent⟩] })
  else
    (.error .outOfMemory, engine)

def unsubscribe (engine : TailByteEngine) (topic : Topic) : Bool × TailByteEngine :=
  (engine.sessions.any (·.topic == topic), { engine with
    sessions := engine.sessions.filter (·.topic != topic)
    unsubscribed := engine.unsubscribed + 1 })

/-! ## Reception -/

def metadataOf (id : Identifier) (transferId : TransferId) : Metadata :=
  { priority := id.priority, kind := id.kind, port := id.port, remote := id.source, transferId }

def isAddressedTo (id : Identifier) (node : Option NodeId) : Bool :=
  match id.destination with
  | none => true
  | some destination => some destination == node

/-- A transfer is complete: what is kept of its data goes into a block. -/
def complete (assembly : Assembly) (extent : Nat) (heap : Heap) :
    Except Fault (AcceptOutcome × Heap) := do
  let (transfer, heap) ←
    Transfer.create heap assembly.metadata assembly.timestamp (assembly.data.take extent)
  match transfer with
  | none => return (.outOfMemory, heap)
  | some transfer => return (.complete transfer, heap)

def acceptTailed (engine : TailByteEngine) (frame : Assembly) (tail : Tail) (extent : Nat)
    (heap : Heap) : Except Fault (AcceptOutcome × TailByteEngine × Heap) :=
  if tail.first then
    if tail.last then do
      let (outcome, heap) ← complete frame extent heap
      return (outcome, engine, heap)
    else
      return (.fragment, { engine with assembly := some frame }, heap)
  else
    match engine.assembly with
    | none => return (.rejected, engine, heap)
    | some assembly =>
        if assembly.continues frame.metadata frame.data then
          let assembly := { assembly with data := assembly.data ++ frame.data }
          if tail.last then do
            let (outcome, heap) ← complete assembly extent heap
            return (outcome, { engine with assembly := none }, heap)
          else
            return (.fragment, { engine with assembly := some assembly }, heap)
        else
          return (.rejected, { engine with assembly := none }, heap)

def accept (engine : TailByteEngine) (frame : ReceivedFrame) (heap : Heap) :
    Except Fault (AcceptOutcome × TailByteEngine × Heap) :=
  if isAddressedTo frame.id engine.nodeId then
    match engine.extentFor ⟨frame.id.kind, frame.id.port⟩, frame.data.bytes.getLast? with
    | some extent, some byte =>
        let tail := Tail.ofByte byte
        engine.acceptTailed
          ⟨metadataOf frame.id tail.transferId, frame.timestamp, frame.data.bytes.dropLast⟩
          tail extent heap
    | _, _ => .ok (.rejected, engine, heap)
  else
    .ok (.rejected, engine, heap)

/-! ## Transmission -/

def identifierFor (node : Option NodeId) (metadata : Metadata) : Option Identifier := do
  let fields ← match metadata.kind, node, metadata.remote with
    | .message, some sender, none => some (Identifier.Fields.message metadata.port sender)
    | .message, none, none => some (Identifier.Fields.anonymous metadata.port 0)
    | .message, _, some _ => none
    | kind, some sender, some remote =>
        some (Identifier.Fields.service kind metadata.port sender remote)
    | _, _, _ => none
  (fields.withPriority metadata.priority).encode.toOption

/-- Number of frames that carry `length` bytes of data, `width` bytes each. -/
def frameCount (width length : Nat) : Nat :=
  max 1 ((length + width - 1) / width)

/-- The data fields of the frames of a transfer, tails included. -/
def split (width : Nat) (transferId : TransferId) (data : Bytes) : List Bytes :=
  let count := frameCount width data.length
  (List.range count).map fun index =>
    (data.drop (index * width)).take width ++ [(Tail.ofIndex transferId count index).toByte]

def freeAll (heap : Heap) : List Block → Except Fault Heap
  | [] => .ok heap
  | block :: rest => do
      let heap ← heap.free block
      freeAll heap rest

/-- Put data fields into blocks, behind those in `stored`.  When the heap refuses one, all
blocks are given back. -/
def storeAll (heap : Heap) (stored : List Block) : List Bytes →
    Except Fault (Option (List Block) × Heap)
  | [] => .ok (some stored, heap)
  | data :: rest => do
      let (block, heap) ← heap.store data
      match block with
      | none =>
          let heap ← freeAll heap stored
          return (none, heap)
      | some block => storeAll heap (stored ++ [block]) rest

/-- Put a frame into a queue: before the first frame with a greater identifier. -/
def insert (frame : QueuedFrame) : List QueuedFrame → List QueuedFrame
  | [] => [frame]
  | queued :: rest =>
      if frame.id.toNat < queued.id.toNat then
        frame :: queued :: rest
      else
        queued :: insert frame rest

def push (engine : TailByteEngine) (deadline : Micros) (metadata : Metadata) (payload : Bytes)
    (heap : Heap) : Except Fault (Except EngineError Nat × TailByteEngine × Heap) :=
  match identifierFor engine.nodeId metadata with
  | none => .ok (.error .invalidArgument, engine, heap)
  | some id =>
      let width := engine.mtu.bytes - 1
      let count := frameCount width payload.length
      if 1 < count ∧ engine.nodeId.isNone then
        .ok (.error .invalidArgument, engine, heap)
      else if min engine.transmitCapacity transmitLimit < engine.queue.length + count then
        .ok (.error .queueFull, engine, heap)
      else do
        let (stored, heap) ← storeAll heap [] (split width metadata.transferId payload)
        match stored with
        | none => return (.error .outOfMemory, engine, heap)
        | some blocks =>
            let frames := blocks.map fun block => ({ deadline, id, payload := block } : QueuedFrame)
            let queue := frames.foldl (fun queue frame => insert frame queue) engine.queue
            return (.ok count, { engine with queue }, heap)

instance : Engine TailByteEngine where
  configure config engine :=
    { engine with
      nodeId := config.nodeId
      mtu := config.mtu
      transmitCapacity := config.transmitCapacity }
  accept frame engine heap := engine.accept frame heap
  subscribe topic params engine := engine.subscribe topic params.extent
  unsubscribe topic engine heap :=
    let (closed, engine) := engine.unsubscribe topic
    .ok (closed, engine, heap)
  push deadline metadata payload engine heap := engine.push deadline metadata payload heap
  peek engine := engine.queue.head?
  pop engine := (engine.queue.head?, { engine with queue := engine.queue.tail })
  pending engine := engine.queue.length

end TailByteEngine

end CanNode
