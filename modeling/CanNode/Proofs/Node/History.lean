import CanNode.Engine.Traced
import CanNode.Node.Spin

/-!
# Histories of a node

A node is used by calls, and frames reach its receive queue between them.  The history of a run
lists what passed between the node and its surroundings, in order: readings of the clock, calls
of the engine, of receivers and of transmitters, and blocks given back to the heap.

`Node.Runs` says which histories a sequence of calls can have.  `Node.Runs.steps` says that a
history consists of steps, so that by `Node.Steps.invariant` what every step preserves a run
preserves, and `Node.Steps.calls_eq` that it holds every call of the engine.
-/

namespace CanNode

def Transfer.topic (transfer : Transfer) : Topic :=
  ⟨transfer.metadata.kind, transfer.metadata.port⟩

inductive Arrival where
  | raw (id : UInt32) (data : Bytes) (timestamp : Micros)
  | stored (frame : ReceivedFrame)
  | driver {limit : Nat} (frame : PlainFrame limit) (timestamp : Micros)

def Arrival.enter (queue : ReceiveQueue) : Arrival → Except ReceiveError Unit × ReceiveQueue
  | .raw id data timestamp => queue.receive id data timestamp
  | .stored frame => queue.enqueue frame
  | .driver frame timestamp => queue.receiveBusFrame frame timestamp

namespace Node

inductive Call (ρ τ : Type) where
  | subscribe (topic : Topic) (params : SessionParams) (receiver : ρ)
  | unsubscribe (topic : Topic)
  | enqueue (timeout : Micros) (metadata : Metadata) (payload : Bytes)
  | receive (id : UInt32) (data : Bytes)
  | arrive (arrival : Arrival)
  | readClock
  | spin (transmitter : τ)

/-- Something that passed between a node and its surroundings. -/
inductive Event (ρ : Type) where
  | clock (time : Micros)
  /-- A call of the engine, and the heap as the engine left it. -/
  | engine (call : EngineCall) (heap : Heap)
  | delivered (receiver : ρ) (delivery : Delivery)
  | offered (frame : OutgoingFrame) (accepted : Bool)
  | freed (block : Block)
  | subscribed (topic : Topic) (receiver : ρ) (answer : Except SubscribeError (Option ρ))
  | unsubscribed (topic : Topic) (removed : Bool)

variable {σ κ ρ α τ : Type}

def withQueue (node : Node σ κ ρ α) (queue : ReceiveQueue) : Node σ κ ρ α :=
  { node with shared := { node.shared with queue } }

section Run

variable [Engine σ] [Clock κ] [Receiver ρ (Shared α)] [Transmitter τ]

def perform (node : Node σ κ ρ α) : Call ρ τ → Except Fault (Node σ κ ρ α)
  | .subscribe topic params receiver => .ok (node.subscribe topic params receiver).2
  | .unsubscribe topic => Prod.snd <$> node.unsubscribe topic
  | .enqueue timeout metadata payload => Prod.snd <$> node.enqueue timeout metadata payload
  | .receive id data => .ok (node.receive id data).2
  | .arrive arrival => .ok (node.withQueue (arrival.enter node.shared.queue).2)
  | .readClock => .ok node.now.2
  | .spin transmitter => Prod.fst <$> node.spin transmitter

def run (node : Node σ κ ρ α) : List (Call ρ τ) → Except Fault (Node σ κ ρ α)
  | [] => .ok node
  | call :: rest => do
      let next ← node.perform call
      next.run rest

end Run

/-! ## What a call can do -/

section Steps

variable [Engine σ]

inductive Processes [Receiver ρ (Shared α)] (node : Node σ κ ρ α) (frame : ReceivedFrame) :
    List (Event ρ) → Node σ κ ρ α → Prop where
  | rejected {engine heap}
      (haccept : Engine.accept frame node.engine node.heap = .ok (.rejected, engine, heap)) :
      Processes node frame [.engine (.accept frame .rejected) heap]
        { node with
          engine, heap
          stats := { node.stats with
            framesReceived := node.stats.framesReceived + 1
            rejected := node.stats.rejected + 1 } }
  | fragment {engine heap}
      (haccept : Engine.accept frame node.engine node.heap = .ok (.fragment, engine, heap)) :
      Processes node frame [.engine (.accept frame .fragment) heap]
        { node with
          engine, heap
          stats := { node.stats with framesReceived := node.stats.framesReceived + 1 } }
  | outOfMemory {engine heap}
      (haccept : Engine.accept frame node.engine node.heap = .ok (.outOfMemory, engine, heap)) :
      Processes node frame [.engine (.accept frame .outOfMemory) heap]
        { node with
          engine, heap
          stats := { node.stats with
            framesReceived := node.stats.framesReceived + 1
            receiveOutOfMemory := node.stats.receiveOutOfMemory + 1 } }
  | unhandled {transfer engine heap released}
      (haccept : Engine.accept frame node.engine node.heap =
        .ok (.complete transfer, engine, heap))
      (hfind : node.registry.find? transfer.topic = none)
      (hrelease : Delivery.release ⟨heap, transfer⟩ = .ok released) :
      Processes node frame
        (.engine (.accept frame (.complete transfer)) heap ::
          transfer.payload.toList.map .freed)
        { node with
          engine
          heap := released
          stats := { node.stats with
            framesReceived := node.stats.framesReceived + 1
            transfersReceived := node.stats.transfersReceived + 1
            unhandled := node.stats.unhandled + 1 } }
  | delivered {transfer engine heap receiver shared released}
      (haccept : Engine.accept frame node.engine node.heap =
        .ok (.complete transfer, engine, heap))
      (hfind : node.registry.find? transfer.topic = some receiver)
      (hreceiver : Receiver.onTransfer receiver ⟨heap, transfer⟩ node.shared = .ok shared)
      (hrelease : Delivery.release ⟨heap, transfer⟩ = .ok released) :
      Processes node frame
        (.engine (.accept frame (.complete transfer)) heap ::
          .delivered receiver ⟨heap, transfer⟩ :: transfer.payload.toList.map .freed)
        { node with
          engine, shared
          heap := released
          stats := { node.stats with
            framesReceived := node.stats.framesReceived + 1
            transfersReceived := node.stats.transfersReceived + 1
            dispatched := node.stats.dispatched + 1 } }

inductive Receives [Receiver ρ (Shared α)] :
    Node σ κ ρ α → Nat → List (Event ρ) → Node σ κ ρ α → Prop where
  | done {node} : Receives node 0 [] node
  | dry {node count error queue} (hdequeue : node.shared.queue.dequeue = (.error error, queue)) :
      Receives node (count + 1) [] node
  | next {node count frame queue events middle rest last}
      (hdequeue : node.shared.queue.dequeue = (.ok frame, queue))
      (hprocess : (node.withQueue queue).Processes frame events middle)
      (hrest : Receives middle count rest last) :
      Receives node (count + 1) (events ++ rest) last

/-- The head of the engine's queue is looked at.  The flag says whether to look again. -/
inductive Looks [Clock κ] [Transmitter τ] (node : Node σ κ ρ α) (transmitter : τ) :
    List (Event ρ) → Bool → Node σ κ ρ α → τ → Prop where
  | empty {time clock} (hclock : Clock.read node.clock = (time, clock))
      (hpeek : Engine.peek node.engine = none) :
      Looks node transmitter [.clock time] false { node with clock } transmitter
  | expired {time clock head frame engine heap}
      (hclock : Clock.read node.clock = (time, clock))
      (hpeek : Engine.peek node.engine = some head) (hlate : head.deadline < time)
      (hpop : Engine.pop node.engine = (some frame, engine))
      (hfree : node.heap.free frame.payload = .ok heap) :
      Looks node transmitter
        [.clock time, .engine (.pop (some frame)) node.heap, .freed frame.payload] true
        { node with
          clock, engine, heap
          stats := { node.stats with expired := node.stats.expired + 1 } } transmitter
  | expiredKept {time clock head engine} (hclock : Clock.read node.clock = (time, clock))
      (hpeek : Engine.peek node.engine = some head) (hlate : head.deadline < time)
      (hpop : Engine.pop node.engine = (none, engine)) :
      Looks node transmitter [.clock time, .engine (.pop none) node.heap] false
        { node with clock, engine } transmitter
  | refused {time clock head data final} (hclock : Clock.read node.clock = (time, clock))
      (hpeek : Engine.peek node.engine = some head) (hdue : ¬ head.deadline < time)
      (hread : node.heap.read head.payload = .ok data)
      (hoffer : Transmitter.transmit ⟨head.id, data, head.deadline⟩ transmitter =
        (false, final)) :
      Looks node transmitter [.clock time, .offered ⟨head.id, data, head.deadline⟩ false] false
        { node with clock } final
  | sent {time clock head data final frame engine heap}
      (hclock : Clock.read node.clock = (time, clock))
      (hpeek : Engine.peek node.engine = some head) (hdue : ¬ head.deadline < time)
      (hread : node.heap.read head.payload = .ok data)
      (hoffer : Transmitter.transmit ⟨head.id, data, head.deadline⟩ transmitter = (true, final))
      (hpop : Engine.pop node.engine = (some frame, engine))
      (hfree : node.heap.free frame.payload = .ok heap) :
      Looks node transmitter
        [.clock time, .offered ⟨head.id, data, head.deadline⟩ true,
          .engine (.pop (some frame)) node.heap, .freed frame.payload] true
        { node with
          clock, engine, heap
          stats := { node.stats with sent := node.stats.sent + 1 } } final
  | sentKept {time clock head data final engine}
      (hclock : Clock.read node.clock = (time, clock))
      (hpeek : Engine.peek node.engine = some head) (hdue : ¬ head.deadline < time)
      (hread : node.heap.read head.payload = .ok data)
      (hoffer : Transmitter.transmit ⟨head.id, data, head.deadline⟩ transmitter = (true, final))
      (hpop : Engine.pop node.engine = (none, engine)) :
      Looks node transmitter
        [.clock time, .offered ⟨head.id, data, head.deadline⟩ true,
          .engine (.pop none) node.heap] false
        { node with clock, engine } final

inductive Drains [Clock κ] [Transmitter τ] :
    Node σ κ ρ α → τ → List (Event ρ) → Node σ κ ρ α → τ → Prop where
  | stop {node transmitter events last final}
      (hlook : Looks node transmitter events false last final) :
      Drains node transmitter events last final
  | more {node transmitter events next middle rest last final}
      (hlook : Looks node transmitter events true next middle)
      (hrest : Drains next middle rest last final) :
      Drains node transmitter (events ++ rest) last final

/-- A call other than `spin` is handled. -/
inductive Handles [Clock κ] (node : Node σ κ ρ α) :
    Call ρ τ → List (Event ρ) → Node σ κ ρ α → Prop where
  | invalidPort {topic params receiver} (hinvalid : topic.isValid = false) :
      Handles node (.subscribe topic params receiver)
        [.subscribed topic receiver (.error (.invalidPort topic.port))] node
  | registryFull {topic params receiver} (hvalid : topic.isValid = true)
      (hnew : node.registry.contains topic = false)
      (hfull : node.registry.length = node.registry.capacity) :
      Handles node (.subscribe topic params receiver)
        [.subscribed topic receiver (.error .registryFull)] node
  | sessionRefused {topic params receiver error engine} (hvalid : topic.isValid = true)
      (hroom : node.registry.contains topic = true ∨
        node.registry.length ≠ node.registry.capacity)
      (hsession : Engine.subscribe topic params node.engine = (.error error, engine)) :
      Handles node (.subscribe topic params receiver)
        [.engine (.subscribe topic params (.error error)) node.heap,
          .subscribed topic receiver (.error (.engine error))]
        { node with engine }
  | subscribed {topic params receiver engine registry} (hvalid : topic.isValid = true)
      (hsession : Engine.subscribe topic params node.engine = (.ok (), engine))
      (hinsert : node.registry.insert topic receiver = some registry) :
      Handles node (.subscribe topic params receiver)
        [.engine (.subscribe topic params (.ok ())) node.heap,
          .subscribed topic receiver (.ok (node.registry.find? topic))]
        { node with registry, engine }
  | unknown {topic} (hunknown : node.registry.contains topic = false) :
      Handles node (.unsubscribe topic) [.unsubscribed topic false] node
  | unsubscribed {topic closed engine heap} (hknown : node.registry.contains topic = true)
      (hsession : Engine.unsubscribe topic node.engine node.heap = .ok (closed, engine, heap)) :
      Handles node (.unsubscribe topic)
        [.engine (.unsubscribe topic closed) heap, .unsubscribed topic true]
        { node with registry := node.registry.erase topic, engine, heap }
  | enqueued {timeout metadata payload time clock count engine heap}
      (hclock : Clock.read node.clock = (time, clock))
      (hpush : Engine.push (time.after timeout) metadata payload node.engine node.heap =
        .ok (.ok count, engine, heap)) :
      Handles node (.enqueue timeout metadata payload)
        [.clock time, .engine (.push (time.after timeout) metadata payload (.ok count)) heap]
        { node with
          clock, engine, heap
          stats := { node.stats with
            framesEnqueued := node.stats.framesEnqueued + UInt32.ofNat count } }
  | notEnqueued {timeout metadata payload time clock error engine heap}
      (hclock : Clock.read node.clock = (time, clock))
      (hpush : Engine.push (time.after timeout) metadata payload node.engine node.heap =
        .ok (.error error, engine, heap)) :
      Handles node (.enqueue timeout metadata payload)
        [.clock time, .engine (.push (time.after timeout) metadata payload (.error error)) heap]
        { node with
          clock, engine, heap
          stats := { node.stats with enqueueFailures := node.stats.enqueueFailures + 1 } }
  | received {id data time clock} (hclock : Clock.read node.clock = (time, clock)) :
      Handles node (.receive id data) [.clock time]
        { node.withQueue (node.shared.queue.receive id data time).2 with clock }
  | arrived {arrival} :
      Handles node (.arrive arrival) [] (node.withQueue (arrival.enter node.shared.queue).2)
  | clockRead {time clock} (hclock : Clock.read node.clock = (time, clock)) :
      Handles node .readClock [.clock time] { node with clock }

inductive Performs [Clock κ] [Receiver ρ (Shared α)] [Transmitter τ] (node : Node σ κ ρ α) :
    Call ρ τ → List (Event ρ) → Node σ κ ρ α → Prop where
  | handled {call events last} (hhandle : node.Handles call events last) :
      Performs node call events last
  | spun {transmitter received events sent last final}
      (hreceive : node.Receives node.shared.queue.length received events)
      (hdrain : events.Drains transmitter sent last final) :
      Performs node (.spin transmitter) (received ++ sent) last

inductive Runs [Clock κ] [Receiver ρ (Shared α)] [Transmitter τ] :
    Node σ κ ρ α → List (Call ρ τ) → List (Event ρ) → Node σ κ ρ α → Prop where
  | nil {node} : Runs node [] [] node
  | cons {node call events middle rest history last} (hfirst : Performs node call events middle)
      (hrest : Runs middle rest history last) :
      Runs node (call :: rest) (events ++ history) last

/-- The smallest parts of a run. -/
inductive Step (τ : Type) [Clock κ] [Receiver ρ (Shared α)] [Transmitter τ]
    (node : Node σ κ ρ α) : List (Event ρ) → Node σ κ ρ α → Prop where
  | process {frame queue events next}
      (hdequeue : node.shared.queue.dequeue = (.ok frame, queue))
      (hprocess : (node.withQueue queue).Processes frame events next) : Step τ node events next
  | look {transmitter : τ} {events again next middle}
      (hlook : node.Looks transmitter events again next middle) : Step τ node events next
  | handle {call : Call ρ τ} {events next} (hhandle : node.Handles call events next) :
      Step τ node events next

inductive Steps (τ : Type) [Clock κ] [Receiver ρ (Shared α)] [Transmitter τ] :
    Node σ κ ρ α → List (Event ρ) → Node σ κ ρ α → Prop where
  | nil {node} : Steps τ node [] node
  | cons {node events middle history last} (hstep : Step τ node events middle)
      (hrest : Steps τ middle history last) : Steps τ node (events ++ history) last

end Steps

/-! ## Runs as steps -/

section Decomposition

variable [Engine σ] [Clock κ] [Receiver ρ (Shared α)] [Transmitter τ]
  {node next middle last : Node σ κ ρ α} {events rest history : List (Event ρ)}

theorem Step.steps (h : node.Step τ events next) : node.Steps τ events next := by
  simpa using Steps.cons h .nil

theorem Steps.append (hfirst : node.Steps τ events middle) (hrest : middle.Steps τ rest last) :
    node.Steps τ (events ++ rest) last := by
  induction hfirst with
  | nil => exact hrest
  | cons hstep _ ih =>
      rw [List.append_assoc]
      exact .cons hstep (ih hrest)

/-- What every step preserves a run preserves.  The statement may be about the events so far. -/
theorem Steps.invariant {P : List (Event ρ) → Node σ κ ρ α → Prop}
    (h : node.Steps τ history last)
    (hstep : ∀ {past node events next}, P past node → node.Step τ events next →
      P (past ++ events) next)
    (hfirst : P [] node) : P history last := by
  suffices hgeneral : ∀ past, P past node → P (past ++ history) last from hgeneral [] hfirst
  clear hfirst
  induction h with
  | nil => exact fun past hpast => (List.append_nil past).symm ▸ hpast
  | cons hevents _ ih =>
      intro past hpast
      rw [← List.append_assoc]
      exact ih _ (hstep hpast hevents)

theorem Receives.steps {count : Nat} (h : node.Receives count events last) :
    node.Steps τ events last := by
  induction h with
  | done | dry => exact .nil
  | next hdequeue hprocess _ ih => exact .cons (.process hdequeue hprocess) ih

theorem Drains.steps {transmitter final : τ} (h : node.Drains transmitter events last final) :
    node.Steps τ events last := by
  induction h with
  | stop hlook => exact (Step.look hlook).steps
  | more hlook _ ih => exact .cons (.look hlook) ih

theorem Performs.steps {call : Call ρ τ} (h : node.Performs call events last) :
    node.Steps τ events last := by
  cases h with
  | handled hhandle => exact (Step.handle hhandle).steps
  | spun hreceive hdrain => exact hreceive.steps.append hdrain.steps

theorem Runs.steps {calls : List (Call ρ τ)} (h : node.Runs calls history last) :
    node.Steps τ history last := by
  induction h with
  | nil => exact .nil
  | cons hfirst _ ih => exact hfirst.steps.append ih

end Decomposition

/-! ## Searching a history -/

section Latest

variable {ρ β : Type} {f : Event ρ → Option β} {past events history : List (Event ρ)} {value : β}

/-- What the latest event means that means anything. -/
def latest (f : Event ρ → Option β) (history : List (Event ρ)) : Option β :=
  history.reverse.findSome? f

theorem latest_append (f : Event ρ → Option β) (past events : List (Event ρ)) :
    latest f (past ++ events) = (latest f events).or (latest f past) := by
  unfold latest
  rw [List.reverse_append, List.findSome?_append]

theorem latest_concat (f : Event ρ → Option β) (past : List (Event ρ)) (event : Event ρ) :
    latest f (past ++ [event]) = (f event).or (latest f past) := by
  rw [latest_append]
  simp [latest]

theorem latest_append_of_silent (hsilent : ∀ event ∈ events, f event = none) :
    latest f (past ++ events) = latest f past := by
  have hnone : latest f events = none :=
    List.findSome?_eq_none_iff.mpr fun event hevent => hsilent event (List.mem_reverse.mp hevent)
  rw [latest_append, hnone, Option.none_or]

theorem latest_eq_some_iff : latest f history = some value ↔
    ∃ before event after, history = before ++ event :: after ∧ f event = some value ∧
      ∀ later ∈ after, f later = none := by
  constructor
  · intro h
    obtain ⟨later, event, earlier, hreverse, hevent, hsilent⟩ := List.findSome?_eq_some_iff.mp h
    have hhistory := congrArg List.reverse hreverse
    rw [List.reverse_reverse, List.reverse_append, List.reverse_cons, ← List.append_cons]
      at hhistory
    exact ⟨_, event, _, hhistory, hevent,
      fun other hother => hsilent other (List.mem_reverse.mp hother)⟩
  · rintro ⟨before, event, after, rfl, hevent, hsilent⟩
    rw [List.append_cons, latest_append_of_silent hsilent, latest_concat, hevent]
    rfl

end Latest

/-! ## Calls of the engine -/

def Event.call? {ρ : Type} : Event ρ → Option EngineCall
  | .engine call _ => some call
  | _ => none

end Node

namespace Traced

variable {σ : Type} [Engine σ] {traced next : Traced σ} {heap heap' : Heap}

theorem calls_accept {frame : ReceivedFrame} {outcome : AcceptOutcome}
    (h : Engine.accept frame traced heap = .ok (outcome, next, heap')) :
    next.calls = traced.calls ++ [.accept frame outcome] := by
  obtain ⟨⟨_, engine, heap⟩, -, h⟩ := Fault.bind_eq_ok h
  cases h
  rfl

theorem calls_subscribe {topic : Topic} {params : SessionParams}
    {answer : Except EngineError Unit} (h : Engine.subscribe topic params traced = (answer, next)) :
    next.calls = traced.calls ++ [.subscribe topic params answer] := by
  cases h
  rfl

theorem calls_unsubscribe {topic : Topic} {closed : Bool}
    (h : Engine.unsubscribe topic traced heap = .ok (closed, next, heap')) :
    next.calls = traced.calls ++ [.unsubscribe topic closed] := by
  obtain ⟨⟨_, engine, heap⟩, -, h⟩ := Fault.bind_eq_ok h
  cases h
  rfl

theorem calls_push {deadline : Micros} {metadata : Metadata} {payload : Bytes}
    {answer : Except EngineError Nat}
    (h : Engine.push deadline metadata payload traced heap = .ok (answer, next, heap')) :
    next.calls = traced.calls ++ [.push deadline metadata payload answer] := by
  obtain ⟨⟨_, engine, heap⟩, -, h⟩ := Fault.bind_eq_ok h
  cases h
  rfl

theorem calls_pop {answer : Option QueuedFrame} (h : Engine.pop traced = (answer, next)) :
    next.calls = traced.calls ++ [.pop answer] := by
  cases h
  rfl

end Traced

namespace Node

section Calls

variable {σ κ ρ α τ : Type} [Engine σ] {node last : Node (Traced σ) κ ρ α}
  {events : List (Event ρ)}

theorem Processes.calls_eq [Receiver ρ (Shared α)] {frame : ReceivedFrame}
    (h : node.Processes frame events last) :
    last.engine.calls = node.engine.calls ++ events.filterMap Event.call? := by
  cases h with
  | rejected haccept | fragment haccept | outOfMemory haccept => exact Traced.calls_accept haccept
  | unhandled haccept | delivered haccept =>
      simp [Traced.calls_accept haccept, List.filterMap_cons, Event.call?]

theorem Step.calls_eq [Clock κ] [Receiver ρ (Shared α)] [Transmitter τ]
    (h : node.Step τ events last) :
    last.engine.calls = node.engine.calls ++ events.filterMap Event.call? := by
  cases h with
  | process hdequeue hprocess => exact hprocess.calls_eq
  | look hlook =>
      cases hlook with
      | empty | refused => exact (List.append_nil _).symm
      | expired _ _ _ hpop | expiredKept _ _ _ hpop => exact Traced.calls_pop hpop
      | sent _ _ _ _ _ hpop | sentKept _ _ _ _ _ hpop => exact Traced.calls_pop hpop
  | handle hhandle =>
      cases hhandle with
      | invalidPort | registryFull | unknown | received | arrived | clockRead =>
          exact (List.append_nil _).symm
      | sessionRefused _ _ hsession | subscribed _ hsession =>
          exact Traced.calls_subscribe hsession
      | unsubscribed _ hsession => exact Traced.calls_unsubscribe hsession
      | enqueued _ hpush | notEnqueued _ hpush => exact Traced.calls_push hpush

/-- A history holds the calls that a traced engine records. -/
theorem Steps.calls_eq [Clock κ] [Receiver ρ (Shared α)] [Transmitter τ]
    {history : List (Event ρ)} (h : node.Steps τ history last) :
    last.engine.calls = node.engine.calls ++ history.filterMap Event.call? := by
  refine h.invariant (P := fun past next =>
    next.engine.calls = node.engine.calls ++ past.filterMap Event.call?) ?_ (List.append_nil _).symm
  intro past middle events next hpast hstep
  rw [hstep.calls_eq, hpast, List.filterMap_append, List.append_assoc]

end Calls

end Node

end CanNode
