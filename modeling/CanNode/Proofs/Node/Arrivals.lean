import CanNode.Proofs.Node.Computation
import CanNode.Proofs.Node.Script
import CanNode.Proofs.Queue.Fifo

/-!
# Frames reach the engine as producers gave them

What makes a frame valid for a node is checked in several places: its identifier and its length
when it is stored, its width when it enters a queue, and the width of the queue when the node
starts.  `Node.Traffic` says how a node and its surroundings can use the receive queue, and
`Node.frames_valid` that the engine sees valid frames only, each as some producer gave it.
-/

namespace CanNode

/-- The frame was stored off a bus, for whatever width. -/
def ReceivedFrame.Genuine (frame : ReceivedFrame) : Prop :=
  ∃ mtu id data timestamp, ofRaw mtu id data timestamp = .ok frame

namespace ReceiveQueue

def Call.Genuine : Call → Prop
  | .enqueue frame => frame.Genuine
  | _ => True

/-- What a producer gives: an identifier, data and a time. -/
inductive Call.Offers : Call → Nat → Bytes → Micros → Prop where
  | receive {id data timestamp} : Offers (.receive id data timestamp) id.toNat data timestamp
  | enqueue {mtu id data timestamp frame}
      (hstored : ReceivedFrame.ofRaw mtu id data timestamp = .ok frame) :
      Offers (.enqueue frame) id.toNat data timestamp
  | receiveBusFrame {φ : Type} [BusFrame φ] {frame : φ} {id timestamp}
      (hid : BusFrame.id frame = .extended id) :
      Offers (.receiveBusFrame frame timestamp) id (BusFrame.data frame) timestamp
  | nodeReceive {id data timestamp} :
      Offers (.nodeReceive id data timestamp) id.toNat data timestamp

/-- The frame is what the producer gave, and it is valid for a width. -/
def Gives (mtu : Mtu) (frame : ReceivedFrame) (call : Call) : Prop :=
  ∃ raw bytes time, call.Offers raw bytes time ∧ frame.Stores mtu raw bytes time

variable {mtu : Mtu} {call : Call} {calls more : List Call} {frame : ReceivedFrame}

theorem Call.Hands.gives (h : call.Hands mtu frame) (hgenuine : call.Genuine) :
    Gives mtu frame call := by
  cases call with
  | receive id data timestamp => exact ⟨_, _, _, .receive, h⟩
  | enqueue handed =>
      obtain ⟨rfl, rfl⟩ := h
      obtain ⟨width, id, data, timestamp, hstored⟩ := hgenuine
      have hstores := ReceivedFrame.ofRaw_eq_ok_iff.mp hstored
      exact ⟨_, _, _, .enqueue hstored, hstores.mtu ▸ hstores⟩
  | receiveBusFrame driver timestamp =>
      obtain ⟨-, id, hid, hstores⟩ := h
      exact ⟨_, _, _, .receiveBusFrame hid, hstores⟩
  | nodeReceive id data timestamp => exact ⟨_, _, _, .nodeReceive, h⟩
  | dequeue | nodeDequeue => exact h.elim

theorem run_append (queue : ReceiveQueue) (calls more : List Call) :
    queue.run (calls ++ more) =
      ((queue.run calls).1 ++ ((queue.run calls).2.run more).1,
        ((queue.run calls).2.run more).2) := by
  induction calls generalizing queue with
  | nil => rfl
  | cons call rest ih => simp [run, ih]

theorem map_fst_run (queue : ReceiveQueue) (calls : List Call) :
    (queue.run calls).1.map Prod.fst = calls := by
  induction calls generalizing queue with
  | nil => rfl
  | cons call rest ih => simp [run, ih]

theorem mem_of_mem_accepted {queue : ReceiveQueue}
    (h : call ∈ (queue.run calls).1.filterMap Event.accepted?) : call ∈ calls := by
  obtain ⟨⟨made, answer⟩, hevent, haccepted⟩ := List.mem_filterMap.mp h
  have hmade : made ∈ calls := by
    rw [← map_fst_run queue calls]
    exact List.mem_map_of_mem hevent
  rcases answer with (_ | ⟨⟨⟩⟩) | _
  · cases haccepted
  · cases haccepted
    exact hmade
  · cases haccepted

theorem sublistForall₂_of_sublist {γ δ : Type*} {R : γ → δ → Prop} {xs xs' : List γ}
    {ys : List δ} (hsub : xs'.Sublist xs) (h : List.Forall₂ R xs ys) :
    List.SublistForall₂ R xs' ys := by
  induction h generalizing xs' with
  | nil =>
      cases hsub
      exact .nil
  | cons hhead _ ih =>
      cases hsub with
      | cons _ hrest => exact .cons_right (ih hrest)
      | cons_cons _ hrest => exact .cons hhead (ih hrest)

theorem Gives.valid (h : Gives mtu frame call) :
    frame.id.toNat < 2 ^ 29 ∧ frame.data.mtu = mtu ∧ frame.data.bytes.length ≤ mtu.bytes := by
  obtain ⟨raw, bytes, time, -, hid, hextended, rfl, -, -⟩ := h
  exact ⟨hid ▸ hextended, rfl, frame.data.fits⟩

theorem forall_valid_of_gives {frames : List ReceivedFrame}
    (h : List.SublistForall₂ (Gives mtu) frames calls) : ∀ frame ∈ frames,
      frame.id.toNat < 2 ^ 29 ∧ frame.data.mtu = mtu ∧ frame.data.bytes.length ≤ mtu.bytes := by
  induction h with
  | nil => simp
  | cons hgives _ ih => exact List.forall_mem_cons.mpr ⟨hgives.valid, ih⟩
  | cons_right _ ih => exact ih

/-- Frames taken from a queue that was empty once, and those that wait in it, were given by
different producers that were accepted. -/
theorem gives_of_run {capacity : Nat} {taken : List ReceivedFrame}
    (hgenuine : ∀ call ∈ calls, call.Genuine)
    (htaken : taken.Sublist (((empty capacity mtu).run calls).1.filterMap Event.returned?)) :
    List.SublistForall₂ (Gives mtu) (taken ++ ((empty capacity mtu).run calls).2.frames)
      (((empty capacity mtu).run calls).1.filterMap Event.accepted?) := by
  obtain ⟨-, -, -, stored, hstored, hframes⟩ := serves_run (empty capacity mtu) calls
  -- nothing waited at first, so what was stored is what was returned and what waits
  obtain rfl : stored = _ := hframes
  have hgiven := (List.forall₂_and_left _ _).mpr
    ⟨fun call hcall => hgenuine call (mem_of_mem_accepted hcall), hstored⟩
  refine sublistForall₂_of_sublist (htaken.append_right _) (List.Forall₂.flip ?_)
  exact hgiven.imp fun call frame ⟨hcall, hhands⟩ => hhands.gives hcall

/-! ## Parts of a run -/

variable {first middle last : ReceiveQueue} {frames frames' : List ReceivedFrame}

/-- Calls lead from one queue to another, and what is seen was taken. -/
structure Tracks (first : ReceiveQueue) (frames : List ReceivedFrame)
    (calls : List Call) (last : ReceiveQueue) : Prop where
  queue : last = (first.run calls).2
  frames : frames.Sublist ((first.run calls).1.filterMap Event.returned?)
  genuine : ∀ call ∈ calls, call.Genuine

theorem Tracks.append (hfirst : Tracks first frames calls middle)
    (hrest : Tracks middle frames' more last) :
    Tracks first (frames ++ frames') (calls ++ more) last := by
  obtain ⟨rfl, hframes, hgenuine⟩ := hfirst
  obtain ⟨rfl, hframes', hgenuine'⟩ := hrest
  refine ⟨by rw [run_append], ?_, fun call hcall =>
    (List.mem_append.mp hcall).elim (hgenuine call) (hgenuine' call)⟩
  rw [run_append, List.filterMap_append]
  exact hframes.append hframes'

theorem Tracks.nil (queue : ReceiveQueue) : Tracks queue [] [] queue :=
  ⟨rfl, .slnil, by simp⟩

theorem Tracks.of_run (hgenuine : ∀ call ∈ calls, call.Genuine) :
    Tracks first [] calls (first.run calls).2 :=
  ⟨rfl, List.nil_sublist _, hgenuine⟩

theorem tracks_of_dequeue (h : first.dequeue = (.ok frame, last)) :
    Tracks first [frame] [.nodeDequeue] last := by
  have hperform : first.perform .nodeDequeue = (.taken (.ok frame), last) :=
    congrArg (Prod.map Answer.taken id) h
  constructor <;> simp [run, hperform, Event.returned?, Call.Genuine]

end ReceiveQueue

def Arrival.call : Arrival → ReceiveQueue.Call
  | .raw id data timestamp => .receive id data timestamp
  | .stored frame => .enqueue frame
  | .driver frame timestamp => .receiveBusFrame frame timestamp

theorem Arrival.perform_call (arrival : Arrival) (queue : ReceiveQueue) :
    (queue.perform arrival.call).2 = (arrival.enter queue).2 := by
  cases arrival <;> rfl

/-- All that receivers do with the queue for a transfer are the calls that `conduct` lists, and they
do not make up frames. -/
structure Receiver.Conducts {ρ α : Type} [Receiver ρ (Shared α)]
    (conduct : ρ → Delivery → Shared α → List ReceiveQueue.Call) : Prop where
  queue : ∀ {receiver delivery} {shared next : Shared α},
    Receiver.onTransfer receiver delivery shared = .ok next →
      next.queue = (shared.queue.run (conduct receiver delivery shared)).2
  genuine : ∀ {receiver delivery shared}, ∀ call ∈ conduct receiver delivery shared, call.Genuine

namespace Node

variable {σ κ ρ α τ : Type}

/-! ## Uses of the receive queue -/

def Call.arrived? : Call ρ τ → Option ReceiveQueue.Call
  | .arrive arrival => some arrival.call
  | _ => none

def Call.Genuine (call : Call ρ τ) : Prop :=
  ∀ arrived ∈ call.arrived?, arrived.Genuine

def Event.seen? : Event ρ → Option ReceivedFrame
  | .engine (.accept frame _) _ => some frame
  | _ => none

/-- The frames that the engine is fed, in order. -/
def seen (history : List (Event ρ)) : List ReceivedFrame :=
  history.filterMap Event.seen?

section Processing

variable (conduct : ρ → Delivery → Shared α → List ReceiveQueue.Call)

def conducted (shared : Shared α) : List (Event ρ) → List ReceiveQueue.Call
  | [] => []
  | .delivered receiver delivery :: _ => conduct receiver delivery shared
  | _ :: rest => conducted shared rest

variable {conduct}

private theorem conducted_freed (shared : Shared α) (blocks : List Block) :
    conducted conduct shared (blocks.map .freed) = [] := by
  induction blocks with
  | nil => rfl
  | cons block rest ih => exact ih

theorem forall_conducted {P : ReceiveQueue.Call → Prop}
    (hconduct : ∀ {receiver delivery shared}, ∀ call ∈ conduct receiver delivery shared, P call)
    (shared : Shared α) (events : List (Event ρ)) :
    ∀ call ∈ conducted conduct shared events, P call := by
  induction events with
  | nil => simp [conducted]
  | cons event rest ih =>
      cases event with
      | delivered receiver delivery => exact hconduct
      | clock | engine | offered | freed | subscribed | unsubscribed => exact ih

private theorem seen_freed (blocks : List Block) :
    seen (blocks.map (Event.freed (ρ := ρ))) = [] := by
  simp [seen, Event.seen?]

variable [Engine σ] [Receiver ρ (Shared α)] {node last : Node σ κ ρ α} {events : List (Event ρ)}
  {frame : ReceivedFrame}

/-- Of all that happens for a frame, only what receivers do is about the queue. -/
theorem Processes.queue_eq (hqueue : ∀ {receiver delivery} {shared next : Shared α},
      Receiver.onTransfer receiver delivery shared = .ok next →
        next.queue = (shared.queue.run (conduct receiver delivery shared)).2)
    (h : node.Processes frame events last) :
    last.shared.queue = (node.shared.queue.run (conducted conduct node.shared events)).2 := by
  cases h with
  | rejected | fragment | outOfMemory => rfl
  | unhandled =>
      simp only [conducted, conducted_freed]
      rfl
  | delivered _ _ hreceiver => exact hqueue hreceiver

theorem Processes.tracks (hconduct : Receiver.Conducts conduct)
    (h : node.Processes frame events last) :
    seen events = [frame] ∧
      node.shared.queue.Tracks [] (conducted conduct node.shared events) last.shared.queue := by
  have hseen : seen events = [frame] := by
    cases h with
    | rejected | fragment | outOfMemory => rfl
    | unhandled | delivered => exact congrArg _ (seen_freed _)
  exact ⟨hseen, h.queue_eq hconduct.queue, List.nil_sublist _,
    forall_conducted hconduct.genuine _ _⟩

end Processing

section Traffic

variable [Engine σ] [Clock κ] [Receiver ρ (Shared α)] [Transmitter τ]
  (conduct : ρ → Delivery → Shared α → List ReceiveQueue.Call)

/-- A step of a node or of its surroundings, and the calls of the receive queue in it. -/
inductive Moves (τ : Type) [Transmitter τ] (node : Node σ κ ρ α) :
    List (Event ρ) → List ReceiveQueue.Call → Node σ κ ρ α → Prop where
  | process {frame queue events next}
      (hdequeue : node.shared.queue.dequeue = (.ok frame, queue))
      (hprocess : (node.withQueue queue).Processes frame events next) :
      Moves τ node events (.nodeDequeue :: conducted conduct { node.shared with queue } events) next
  | look {transmitter : τ} {events again next middle}
      (hlook : node.Looks transmitter events again next middle) : Moves τ node events [] next
  | received {id data time clock} (hclock : Clock.read node.clock = (time, clock)) :
      Moves τ node [.clock time] [.nodeReceive id data time]
        { node.withQueue (node.shared.queue.receive id data time).2 with clock }
  | handle {call : Call ρ τ} {events next} (hhandle : node.Handles call events next)
      (hqueue : next.shared = node.shared) : Moves τ node events [] next
  | outside {call : ReceiveQueue.Call} (hgenuine : call.Genuine) :
      Moves τ node [] [call] (node.withQueue (node.shared.queue.perform call).2)

/-- A history, and the calls of the receive queue in it. -/
inductive Traffic (τ : Type) [Transmitter τ] :
    Node σ κ ρ α → List (Event ρ) → List ReceiveQueue.Call → Node σ κ ρ α → Prop where
  | nil {node} : Traffic τ node [] [] node
  | cons {node events calls middle history more last}
      (hmove : node.Moves conduct τ events calls middle)
      (hrest : Traffic τ middle history more last) :
      Traffic τ node (events ++ history) (calls ++ more) last

variable {conduct} {node middle last : Node σ κ ρ α} {events history : List (Event ρ)}
  {calls more : List ReceiveQueue.Call}

theorem Moves.tracks (hconduct : Receiver.Conducts conduct)
    (h : node.Moves conduct τ events calls last) :
    node.shared.queue.Tracks (seen events) calls last.shared.queue := by
  cases h with
  | process hdequeue hprocess =>
      obtain ⟨hseen, htracks⟩ := hprocess.tracks hconduct
      rw [hseen]
      exact (ReceiveQueue.tracks_of_dequeue hdequeue).append htracks
  | look hlook => cases hlook <;> exact .nil _
  | received => exact .of_run (by simp [ReceiveQueue.Call.Genuine])
  | handle hhandle hqueue =>
      rw [hqueue]
      cases hhandle <;> exact .nil _
  | outside hgenuine => exact .of_run (by simpa using hgenuine)

theorem Traffic.tracks (hconduct : Receiver.Conducts conduct)
    (h : node.Traffic conduct τ history calls last) :
    node.shared.queue.Tracks (seen history) calls last.shared.queue := by
  induction h with
  | nil => exact .nil _
  | cons hmove _ ih =>
      rw [seen, List.filterMap_append]
      exact (hmove.tracks hconduct).append ih

/-! ### Runs as uses of the queue -/

theorem Moves.traffic (h : node.Moves conduct τ events calls last) :
    node.Traffic conduct τ events calls last := by
  simpa using Traffic.cons h .nil

theorem Traffic.append (hfirst : node.Traffic conduct τ events calls middle)
    (hrest : middle.Traffic conduct τ history more last) :
    node.Traffic conduct τ (events ++ history) (calls ++ more) last := by
  induction hfirst with
  | nil => exact hrest
  | cons hmove _ ih =>
      rw [List.append_assoc, List.append_assoc]
      exact .cons hmove (ih hrest)

variable (conduct)

theorem Pumps.traffic (h : node.Pumps τ events last) :
    ∃ calls, node.Traffic conduct τ events calls last := by
  induction h with
  | nil => exact ⟨[], .nil⟩
  | process hdequeue hprocess _ ih =>
      obtain ⟨calls, hrest⟩ := ih
      exact ⟨_, .cons (.process hdequeue hprocess) hrest⟩
  | look hlook _ ih =>
      obtain ⟨calls, hrest⟩ := ih
      exact ⟨_, .cons (.look hlook) hrest⟩

theorem Drains.traffic {transmitter final : τ} (h : node.Drains transmitter events last final) :
    ∃ calls, node.Traffic conduct τ events calls last := by
  induction h with
  | stop hlook => exact ⟨_, (Moves.look hlook).traffic⟩
  | more hlook _ ih =>
      obtain ⟨calls, hrest⟩ := ih
      exact ⟨_, .cons (.look hlook) hrest⟩

theorem Performs.traffic {call : Call ρ τ} (h : node.Performs call events last)
    (hgenuine : call.Genuine) : ∃ calls, node.Traffic conduct τ events calls last ∧
      call.arrived?.toList.Sublist calls := by
  cases h with
  | spun hreceive hdrain =>
      obtain ⟨received, hreceive⟩ := Pumps.traffic (τ := τ) conduct hreceive.pumps
      obtain ⟨sent, hdrain⟩ := hdrain.traffic conduct
      exact ⟨_, hreceive.append hdrain, List.nil_sublist _⟩
  | handled hhandle =>
  cases call with
  | subscribe | unsubscribe | enqueue | readClock =>
      exact ⟨_, (Moves.handle hhandle (by cases hhandle <;> rfl)).traffic, List.nil_sublist _⟩
  | receive =>
      cases hhandle with
      | received hclock => exact ⟨_, (Moves.received hclock).traffic, List.nil_sublist _⟩
  | arrive arrival =>
      cases hhandle with
      | arrived =>
          rw [← arrival.perform_call]
          exact ⟨_, (Moves.outside (hgenuine _ rfl)).traffic, .refl _⟩
  | spin => cases hhandle

/-- Every run is made of such steps, and the frames that arrive in it are among the calls. -/
theorem Runs.traffic {uses : List (Call ρ τ)} (h : node.Runs uses history last)
    (hgenuine : ∀ call ∈ uses, call.Genuine) :
    ∃ calls, node.Traffic conduct τ history calls last ∧
      (uses.filterMap Call.arrived?).Sublist calls := by
  induction h with
  | nil => exact ⟨[], .nil, .refl _⟩
  | @cons _ call _ _ rest _ _ hfirst _ ih =>
      obtain ⟨hcall, hothers⟩ := List.forall_mem_cons.mp hgenuine
      obtain ⟨calls, hfirst, harrived⟩ := hfirst.traffic conduct hcall
      obtain ⟨more, hrest, hmore⟩ := ih hothers
      refine ⟨_, hfirst.append hrest, ?_⟩
      have hsplit : (call :: rest).filterMap Call.arrived? =
          call.arrived?.toList ++ rest.filterMap Call.arrived? := by
        cases harrival : call.arrived? <;> simp [harrival]
      rw [hsplit]
      exact harrived.append hmore

theorem Reaches.traffic {uses : List (Call ρ τ)} (h : node.Reaches uses history last)
    (hgenuine : ∀ call ∈ uses, call.Genuine) :
    ∃ calls, node.Traffic conduct τ history calls last := by
  cases h with
  | called hdone =>
      obtain ⟨calls, hdone, -⟩ := hdone.traffic conduct fun call hcall =>
        hgenuine call (List.mem_append_left _ hcall)
      exact ⟨calls, hdone⟩
  | pumped hdone hpumps =>
      obtain ⟨calls, hdone, -⟩ := hdone.traffic conduct fun call hcall =>
        hgenuine call (List.mem_append_left _ hcall)
      obtain ⟨more, hpumps⟩ := hpumps.traffic conduct
      exact ⟨_, hdone.append hpumps⟩

end Traffic

/-- A node starts only with a queue for frames of the configured width. -/
theorem mtu_eq_of_start [Engine σ] {engine : σ} {arena : Arena} {clock : κ} {shared : Shared α}
    {config : NodeConfig} {capacity : Nat} {node : Node σ κ ρ α}
    (h : start engine arena clock shared config capacity = .ok node) :
    shared.queue.mtu = config.mtu := by
  by_contra hmtu
  simp [start, check, hmtu, bind, Except.bind] at h

/-- Every frame that the engine sees of a node, and every frame that waits for it, is valid for the
configured width, and is what some producer gave: from different producers, in the order in which
these were accepted.  This is so for every run, also up to a fault that ends it early. -/
theorem frames_valid [Engine σ] [Clock κ] [Receiver ρ (Shared α)] [Transmitter τ]
    {conduct : ρ → Delivery → Shared α → List ReceiveQueue.Call}
    (hconduct : Receiver.Conducts conduct) {engine : σ} {arena : Arena} {clock : κ}
    {shared : Shared α} {config : NodeConfig} {capacity : Nat} {node : Node σ κ ρ α}
    (hstart : start engine arena clock shared config capacity = .ok node)
    {room : Nat} {width : Mtu} {earlier : List ReceiveQueue.Call}
    (hqueue : shared.queue = ((ReceiveQueue.empty room width).run earlier).2)
    (hearlier : ∀ call ∈ earlier, call.Genuine) {uses : List (Call ρ τ)}
    (huses : ∀ call ∈ uses, call.Genuine) :
    node.Adequate uses ∧
    (∀ last history, node.Runs uses history last →
      ∃ calls, node.Traffic conduct τ history calls last ∧
        (uses.filterMap Call.arrived?).Sublist calls) ∧
    (∀ last history, node.Reaches uses history last →
      ∃ calls, node.Traffic conduct τ history calls last) ∧
    ∀ last history calls, node.Traffic conduct τ history calls last →
      last.shared.queue = ((ReceiveQueue.empty room width).run (earlier ++ calls)).2 ∧
      List.SublistForall₂ (ReceiveQueue.Gives config.mtu)
        (seen history ++ last.shared.queue.frames)
        (((ReceiveQueue.empty room width).run (earlier ++ calls)).1.filterMap
          ReceiveQueue.Event.accepted?) ∧
      ∀ frame ∈ seen history ++ last.shared.queue.frames,
        frame.id.toNat < 2 ^ 29 ∧ frame.data.mtu = config.mtu ∧
          frame.data.bytes.length ≤ config.mtu.bytes := by
  refine ⟨adequate node uses, fun last history hruns => hruns.traffic conduct huses,
    fun last history hreaches => hreaches.traffic conduct huses,
    fun last history calls htraffic => ?_⟩
  have hmtu := mtu_eq_of_start hstart
  obtain ⟨heap, -, rfl⟩ := start_eq_ok hstart
  have htracks : (ReceiveQueue.empty room width).Tracks (seen history) (earlier ++ calls)
      last.shared.queue := by
    have hfirst : (ReceiveQueue.empty room width).Tracks [] earlier shared.queue :=
      hqueue ▸ .of_run hearlier
    exact hfirst.append (htraffic.tracks hconduct)
  obtain rfl : width = config.mtu := by
    rw [← hmtu, hqueue]
    exact (ReceiveQueue.serves_run (.empty room width) earlier).mtu.symm
  have hgives := ReceiveQueue.gives_of_run htracks.genuine htracks.frames
  rw [← htracks.queue] at hgives
  exact ⟨htracks.queue, hgives, ReceiveQueue.forall_valid_of_gives hgives⟩

/-- A receiver that puts what it gets back into the queue, behind an identifier. -/
structure Repeater where
  id : UInt32

instance : Receiver Repeater (Shared Unit) where
  onTransfer repeater delivery shared := do
    let payload ← delivery.payload
    let (_, queue) := shared.queue.receive repeater.id payload delivery.transfer.timestamp
    return { shared with queue }

def Repeater.conduct (repeater : Repeater) (delivery : Delivery) (_ : Shared Unit) :
    List ReceiveQueue.Call :=
  match delivery.payload with
  | .ok payload => [.receive repeater.id payload delivery.transfer.timestamp]
  | .error _ => []

theorem Repeater.conducts : Receiver.Conducts Repeater.conduct where
  queue {repeater delivery shared next} h := by
    obtain ⟨payload, hpayload, h⟩ := Fault.bind_eq_ok h
    cases h
    simp only [conduct, hpayload]
    rfl
  genuine {repeater delivery shared} call hcall := by
    unfold conduct at hcall
    split at hcall
    · rw [List.mem_singleton.mp hcall]
      trivial
    · cases hcall

def wideFrame : ReceivedFrame :=
  ⟨⟨0x10606407⟩, ⟨.fd, [1, 2, 3, 4, 5, 6, 7, 8, 0xE0], by decide⟩, 1⟩

theorem wideFrame_genuine : wideFrame.Genuine :=
  ⟨.fd, 0x10606407, [1, 2, 3, 4, 5, 6, 7, 8, 0xE0], 1, rfl⟩

def sampleQueue : List ReceiveQueue.Call :=
  [.receive 0x10606407 [1, 2, 0xE2, 0xE0] 2, .receive 0x20606407 [1, 0xE0] 3, .enqueue wideFrame]

def sampleArrivals : List (Call Repeater ScriptedTransmitter) :=
  [.subscribe (.message (.ofNat 100)) { extent := 16 } ⟨0x10606407⟩,
    .arrive (.stored wideFrame), .receive 0x10606407 [4, 0xE3],
    .arrive (.driver (⟨.extended 0x10606407, false, [5, 0xE4]⟩ : PlainFrame 8) 6), .spin ⟨[]⟩,
    .spin ⟨[]⟩]

def sampleStart : Except StartError (Node TailByteEngine ScriptedClock Repeater Unit) :=
  start {} (Arena.filled 256 0xAA) ⟨[9]⟩ ⟨((ReceiveQueue.empty 4 .classic).run sampleQueue).2, ()⟩
    { nodeId := NodeId.ofNat? 42, transmitCapacity := 8 } 2

/-- Three frames are refused, because their identifier is no extended one or because they are too
wide.  The engine sees the other three and those that the receiver repeats, but for the last. -/
theorem frames_valid_sample :
    ∃ node last history calls, sampleStart = .ok node ∧ node.Runs sampleArrivals history last ∧
      node.Traffic Repeater.conduct ScriptedTransmitter history calls last ∧
      List.SublistForall₂ (ReceiveQueue.Gives .classic)
        (seen history ++ last.shared.queue.frames)
        (((ReceiveQueue.empty 4 .classic).run (sampleQueue ++ calls)).1.filterMap
          ReceiveQueue.Event.accepted?) ∧
      last.stats.framesReceived = 6 ∧ last.shared.queue.length = 1 ∧
      last.shared.queue.dropped = 3 := by
  have hearlier : ∀ call ∈ sampleQueue, call.Genuine := by
    simp [sampleQueue, ReceiveQueue.Call.Genuine, wideFrame_genuine]
  have huses : ∀ call ∈ sampleArrivals, call.Genuine := by
    simp [sampleArrivals, Call.Genuine, Call.arrived?, Arrival.call, ReceiveQueue.Call.Genuine,
      wideFrame_genuine]
  have hsample : (sampleStart.toOption.bind fun node => (node.run sampleArrivals).toOption).any
      (fun last => decide (last.stats.framesReceived = 6 ∧ last.shared.queue.length = 1 ∧
        last.shared.queue.dropped = 3)) = true := by
    decide +kernel
  obtain ⟨node, last, hstart, hrun, hlast⟩ := exists_run_of_any hsample
  have hqueue : ((ReceiveQueue.empty 4 .classic).run sampleQueue).2 =
      ((ReceiveQueue.empty 4 .classic).run sampleQueue).2 := rfl
  obtain ⟨hadequate, htraffic, -, hvalid⟩ :=
    frames_valid Repeater.conducts hstart hqueue hearlier huses
  obtain ⟨history, hhistory⟩ := hadequate.sound last hrun
  obtain ⟨calls, hcalls, -⟩ := htraffic last history hhistory
  exact ⟨node, last, history, calls, hstart, hhistory, hcalls, (hvalid _ _ _ hcalls).2.1,
    of_decide_eq_true hlast⟩

end Node

end CanNode
