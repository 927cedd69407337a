import CanNode.Proofs.Node.Arrivals
import CanNode.Proofs.Node.Counters

/-!
# What a receive phase does

Receivers can put frames into the receive queue while a receive phase takes frames out of it.
`Node.Consumes` says how frames are taken out and fed to the engine, with what receivers put in
between.  `Node.receivePhase_consumes` says that the phase does this to the frames that are queued
when it starts and to no others, and that the frames which come while it runs wait.
-/

namespace CanNode

namespace ReceiveQueue

def Call.isOffer : Call → Bool
  | .dequeue | .nodeDequeue => false
  | _ => true

theorem returned_of_offers {queue : ReceiveQueue} {calls : List Call}
    (h : ∀ call ∈ calls, call.isOffer = true) :
    (queue.run calls).1.filterMap Event.returned? = [] := by
  induction calls generalizing queue with
  | nil => rfl
  | cons call rest ih =>
      obtain ⟨hcall, hrest⟩ := List.forall_mem_cons.mp h
      have hnone : Event.returned? (call, (queue.perform call).1) = none := by
        cases call with
        | receive | enqueue | receiveBusFrame | nodeReceive => rfl
        | dequeue | nodeDequeue => cases hcall
      rw [run, List.filterMap_cons_none hnone]
      exact ih hrest

end ReceiveQueue

/-- All that receivers do with the queue for a transfer are the calls that `feed` lists, and these
take nothing out. -/
structure Receiver.Feeds {ρ α : Type} [Receiver ρ (Shared α)]
    (feed : ρ → Delivery → Shared α → List ReceiveQueue.Call) : Prop where
  queue : ∀ {receiver delivery} {shared next : Shared α},
    Receiver.onTransfer receiver delivery shared = .ok next →
      next.queue = (shared.queue.run (feed receiver delivery shared)).2
  offers : ∀ {receiver delivery shared}, ∀ call ∈ feed receiver delivery shared,
    call.isOffer = true

namespace Node

variable {σ κ ρ α τ : Type}

section Consumption

variable [Engine σ] [Receiver ρ (Shared α)]
  (feed : ρ → Delivery → Shared α → List ReceiveQueue.Call)

/-- Frames are taken out of the queue one after the other, and each is fed to the engine.  The calls
of the queue are those of the node and of receivers. -/
inductive Consumes : Node σ κ ρ α → List ReceivedFrame → List (Event ρ) →
    List ReceiveQueue.Call → Node σ κ ρ α → Prop where
  | nil {node} : Consumes node [] [] [] node
  | cons {node frame queue events next frames history calls last}
      (hdequeue : node.shared.queue.dequeue = (.ok frame, queue))
      (hprocess : (node.withQueue queue).Processes frame events next)
      (hrest : Consumes next frames history calls last) :
      Consumes node (frame :: frames) (events ++ history)
        (.nodeDequeue :: conducted feed { node.shared with queue } events ++ calls) last

/-- Where a node stands when of the frames in its queue some were taken and others are left. -/
structure Consumed (first : Node σ κ ρ α) (taken left : List ReceivedFrame)
    (history : List (Event ρ)) (calls : List ReceiveQueue.Call) (last : Node σ κ ρ α) : Prop where
  engine : history.filterMap Event.call? = taken.zipWith .accept (outcomes history)
  outcomes : (outcomes history).length = taken.length
  framesReceived : last.stats.framesReceived = first.stats.framesReceived + .ofNat taken.length
  queue : last.shared.queue = (first.shared.queue.run calls).2
  returned : (first.shared.queue.run calls).1.filterMap ReceiveQueue.Event.returned? = taken
  waiting : ∃ stored,
    List.Forall₂ (ReceiveQueue.Call.Hands first.shared.queue.mtu)
      ((first.shared.queue.run calls).1.filterMap ReceiveQueue.Event.accepted?) stored ∧
    last.shared.queue.frames = left ++ stored
  next : ∀ frame ∈ left.head?, last.shared.queue.dequeue = (.ok frame, last.shared.queue.tail)

variable {feed} {node last : Node σ κ ρ α} {frame : ReceivedFrame}
  {taken left : List ReceivedFrame} {events history : List (Event ρ)}
  {calls : List ReceiveQueue.Call}

theorem Processes.outcomes_eq (h : node.Processes frame events last) :
    ∃ outcome, outcomes events = [outcome] ∧
      events.filterMap Event.call? = [.accept frame outcome] := by
  cases h with
  | rejected | fragment | outOfMemory => exact ⟨_, rfl, rfl⟩
  | @unhandled transfer | @delivered transfer =>
      refine ⟨.complete transfer, ?_, ?_⟩
      · simp [outcomes, Event.outcome?, List.filterMap_cons]
      · simp [Event.call?, List.filterMap_cons]

theorem Consumes.engine (h : node.Consumes feed taken history calls last) :
    history.filterMap Event.call? = taken.zipWith .accept (outcomes history) ∧
      (outcomes history).length = taken.length := by
  induction h with
  | nil => exact ⟨rfl, rfl⟩
  | cons _ hprocess _ ih =>
      obtain ⟨outcome, houtcome, hcall⟩ := hprocess.outcomes_eq
      rw [List.filterMap_append, outcomes_append, houtcome, hcall, ih.1]
      exact ⟨rfl, congrArg Nat.succ ih.2⟩

theorem Consumes.framesReceived (h : node.Consumes feed taken history calls last) :
    last.stats.framesReceived = node.stats.framesReceived + .ofNat taken.length := by
  induction h with
  | nil => exact (UInt32.add_zero _).symm
  | @cons node frame queue events next frames _ _ _ _ hprocess _ ih =>
      obtain ⟨outcome, houtcome, -⟩ := hprocess.outcomes_eq
      have hnext : next.stats.framesReceived = node.stats.framesReceived + .ofNat 1 := by
        have hadvances := hprocess.advances.framesReceived
        rwa [houtcome] at hadvances
      rw [ih, hnext, UInt32.add_assoc, ← UInt32.ofNat_add, List.length_cons, Nat.add_comm 1]

theorem Consumes.queue (hfeeds : Receiver.Feeds feed)
    (h : node.Consumes feed taken history calls last) :
    last.shared.queue = (node.shared.queue.run calls).2 ∧
      (node.shared.queue.run calls).1.filterMap ReceiveQueue.Event.returned? = taken := by
  induction h with
  | nil => exact ⟨rfl, rfl⟩
  | @cons node frame queue events next _ _ _ _ hdequeue hprocess _ ih =>
      have hperform : node.shared.queue.perform .nodeDequeue = (.taken (.ok frame), queue) :=
        congrArg (Prod.map ReceiveQueue.Answer.taken id) hdequeue
      have hnext : next.shared.queue =
          (queue.run (conducted feed { node.shared with queue } events)).2 :=
        hprocess.queue_eq hfeeds.queue
      have hoffers : ∀ call ∈ conducted feed { node.shared with queue } events,
          call.isOffer = true := forall_conducted hfeeds.offers _ _
      have htaken : ReceiveQueue.Event.returned? (.nodeDequeue, .taken (.ok frame)) = some frame :=
        rfl
      rw [hnext] at ih
      simp only [List.cons_append, ReceiveQueue.run, hperform, ReceiveQueue.run_append]
      refine ⟨ih.1, ?_⟩
      rw [List.filterMap_cons_some htaken, List.filterMap_append,
        ReceiveQueue.returned_of_offers hoffers, List.nil_append, ih.2]

theorem Consumes.waiting (hfeeds : Receiver.Feeds feed)
    (h : node.Consumes feed taken history calls last)
    (hframes : node.shared.queue.frames = taken ++ left) : ∃ stored,
      List.Forall₂ (ReceiveQueue.Call.Hands node.shared.queue.mtu)
        ((node.shared.queue.run calls).1.filterMap ReceiveQueue.Event.accepted?) stored ∧
      last.shared.queue.frames = left ++ stored := by
  obtain ⟨hqueue, hreturned⟩ := h.queue hfeeds
  obtain ⟨-, -, -, stored, hstored, hall⟩ := ReceiveQueue.serves_run node.shared.queue calls
  rw [hreturned, hframes, ← hqueue, List.append_assoc] at hall
  exact ⟨stored, hstored, (List.append_cancel_left hall).symm⟩

theorem Consumes.consumed (hfeeds : Receiver.Feeds feed)
    (h : node.Consumes feed taken history calls last)
    (hframes : node.shared.queue.frames = taken ++ left) :
    node.Consumed taken left history calls last where
  engine := h.engine.1
  outcomes := h.engine.2
  framesReceived := h.framesReceived
  queue := (h.queue hfeeds).1
  returned := (h.queue hfeeds).2
  waiting := h.waiting hfeeds hframes
  next frame hframe := by
    obtain ⟨rest, rfl⟩ := List.head?_eq_some_iff.mp hframe
    obtain ⟨stored, -, hwaiting⟩ := h.waiting hfeeds hframes
    exact ReceiveQueue.dequeue_of_cons hwaiting

/-- While a frame is processed, receivers change nothing about those that are in the queue. -/
theorem Processes.frames_eq (hfeeds : Receiver.Feeds feed)
    (h : (node.withQueue node.shared.queue.tail).Processes frame events last)
    (hframes : node.shared.queue.frames = frame :: left) :
    ∃ stored, last.shared.queue.frames = left ++ stored := by
  have hone : node.Consumes feed [frame] _ _ last :=
    .cons (ReceiveQueue.dequeue_of_cons hframes) h .nil
  obtain ⟨stored, -, hlast⟩ := hone.waiting hfeeds hframes
  exact ⟨stored, hlast⟩

/-! ## The phase -/

theorem Consumes.receives (h : node.Consumes feed taken history calls last) :
    node.Receives taken.length history last := by
  induction h with
  | nil => exact .done
  | cons hdequeue hprocess _ ih => exact .next hdequeue hprocess ih

/-- The queue does not run dry before the frames that were in it at first are taken. -/
theorem Receives.consumes (hfeeds : Receiver.Feeds feed) {count : Nat}
    (h : node.Receives count history last) (hframes : node.shared.queue.frames = taken ++ left)
    (hcount : taken.length = count) : ∃ calls, node.Consumes feed taken history calls last := by
  induction h generalizing taken left with
  | done =>
      rw [List.eq_nil_of_length_eq_zero hcount]
      exact ⟨[], .nil⟩
  | dry hdequeue =>
      obtain ⟨hempty, -, -⟩ := ReceiveQueue.dequeue_eq_error_iff.mp hdequeue
      rw [ReceiveQueue.length, hframes, List.length_append, hcount] at hempty
      omega
  | next hdequeue hprocess _ ih =>
      obtain ⟨first, others, rfl⟩ := List.exists_cons_of_length_eq_add_one hcount
      rw [List.cons_append] at hframes
      cases hdequeue.symm.trans (ReceiveQueue.dequeue_of_cons hframes)
      obtain ⟨stored, hmiddle⟩ := hprocess.frames_eq hfeeds hframes
      rw [List.append_assoc] at hmiddle
      obtain ⟨calls, hrest⟩ := ih hmiddle (Nat.succ.inj hcount)
      exact ⟨_, .cons hdequeue hprocess hrest⟩

/-- A phase that ends early has come to one of the frames that were in the queue at first. -/
theorem exists_consumes_of_error (hfeeds : Receiver.Feeds feed) {fault : Fault}
    (h : node.processQueued taken.length = .error fault)
    (hframes : node.shared.queue.frames = taken ++ left) :
    ∃ before frame after history calls middle queue, taken = before ++ frame :: after ∧
      node.Consumes feed before history calls middle ∧
      middle.shared.queue.dequeue = (.ok frame, queue) ∧
      (middle.withQueue queue).process frame = .error fault := by
  induction taken generalizing node left with
  | nil => cases h
  | cons frame others ih =>
      rw [List.cons_append] at hframes
      have hdequeue := ReceiveQueue.dequeue_of_cons hframes
      rw [List.length_cons, processQueued, hdequeue] at h
      obtain hprocess | ⟨middle, hprocess, hrest⟩ := Fault.bind_eq_error h
      · exact ⟨[], frame, others, [], [], node, _, rfl, .nil, hdequeue, hprocess⟩
      obtain ⟨events, hprocess⟩ := process_eq_ok_iff.mp hprocess
      obtain ⟨stored, hmiddle⟩ := Processes.frames_eq hfeeds hprocess hframes
      rw [List.append_assoc] at hmiddle
      obtain ⟨before, stopped, after, history, calls, last, queue, rfl, hconsumes, hstop⟩ :=
        ih hrest hmiddle
      exact ⟨frame :: before, stopped, after, _, _, last, queue, rfl,
        .cons hdequeue hprocess hconsumes, hstop⟩

/-- A traced engine records a call for every frame, and no others. -/
theorem Consumes.calls_eq {node last : Node (Traced σ) κ ρ α}
    (h : node.Consumes feed taken history calls last) :
    last.engine.calls = node.engine.calls ++ history.filterMap Event.call? := by
  induction h with
  | nil => exact (List.append_nil _).symm
  | cons _ hprocess _ ih =>
      rw [ih, hprocess.calls_eq, List.filterMap_append, List.append_assoc]
      rfl

end Consumption

/-- Whatever the engine does, and whatever receivers put into the receive queue, a receive phase
feeds to the engine the frames that are queued when it starts: each once, in order, and no others.
They are counted, and what the queue accepted meanwhile is what waits in the end.  The queue does
not run dry before; the phase only ends early if a fault is raised over one of these frames. -/
theorem receivePhase_consumes [Receiver ρ (Shared α)]
    {feed : ρ → Delivery → Shared α → List ReceiveQueue.Call} (hfeeds : Receiver.Feeds feed) :
    (∀ {σ : Type} [Engine σ] (node : Node σ κ ρ α),
      (∀ last, node.receivePhase = .ok last ↔
        ∃ history calls, node.Consumes feed node.shared.queue.frames history calls last) ∧
      (∀ fault, node.receivePhase = .error fault →
        ∃ taken frame later history calls middle queue,
          node.shared.queue.frames = taken ++ frame :: later ∧
          node.Consumes feed taken history calls middle ∧
          middle.shared.queue.dequeue = (.ok frame, queue) ∧
          (middle.withQueue queue).process frame = .error fault) ∧
      ∀ taken left history calls last, node.shared.queue.frames = taken ++ left →
        node.Consumes feed taken history calls last →
        node.Consumed taken left history calls last) ∧
    ∀ {σ : Type} [Engine σ] (node last : Node (Traced σ) κ ρ α), node.receivePhase = .ok last →
      ∃ outcomes, outcomes.length = node.shared.queue.length ∧
        last.engine.calls = node.engine.calls ++
          node.shared.queue.frames.zipWith .accept outcomes := by
  have hphase {σ : Type} [Engine σ] (node last : Node σ κ ρ α) : node.receivePhase = .ok last ↔
      ∃ history calls, node.Consumes feed node.shared.queue.frames history calls last := by
    rw [receivePhase, processQueued_eq_ok_iff]
    constructor
    · rintro ⟨history, hreceives⟩
      exact ⟨history, hreceives.consumes hfeeds (List.append_nil _).symm rfl⟩
    · rintro ⟨history, calls, hconsumes⟩
      exact ⟨history, hconsumes.receives⟩
  refine ⟨fun {σ} _ node => ⟨hphase node,
    fun fault hfault => exists_consumes_of_error hfeeds hfault (List.append_nil _).symm,
    fun taken left history calls last hframes hconsumes => hconsumes.consumed hfeeds hframes⟩,
    fun {σ} _ node last hlast => ?_⟩
  obtain ⟨history, calls, hconsumes⟩ := (hphase node last).mp hlast
  refine ⟨outcomes history, hconsumes.engine.2, ?_⟩
  rw [hconsumes.calls_eq, hconsumes.engine.1]

/-- A receiver that answers every transfer with several frames of its own. -/
structure Flooder where
  id : UInt32
  count : Nat

def Flooder.feed (flooder : Flooder) (delivery : Delivery) (_ : Shared Unit) :
    List ReceiveQueue.Call :=
  List.replicate flooder.count (.receive flooder.id [0xE0] delivery.transfer.timestamp)

instance : Receiver Flooder (Shared Unit) where
  onTransfer flooder delivery shared :=
    .ok { shared with queue := (shared.queue.run (flooder.feed delivery shared)).2 }

theorem Flooder.feeds : Receiver.Feeds Flooder.feed where
  queue h := by
    cases h
    rfl
  offers call hcall := by
    rw [List.eq_of_mem_replicate hcall]
    rfl

def sampleFlooded : Except StartError (Node (Traced TailByteEngine) ScriptedClock Flooder Unit) :=
  start ⟨{}, []⟩ (Arena.filled 256 0xAA) ⟨[]⟩
    ⟨((ReceiveQueue.empty 3 .classic).run
      [.receive 0x10606407 [1, 0xE0] 2, .receive 0x10606407 [2, 0xE1] 3]).2, ()⟩
    { nodeId := NodeId.ofNat? 42, transmitCapacity := 8 } 2

/-- Two frames are consumed.  Three of the four that the receiver puts in for them wait in the end,
and for the other there was no room. -/
theorem receivePhase_consumes_sample :
    ∃ (node last : Node (Traced TailByteEngine) ScriptedClock Flooder Unit)
      (history : List (Event Flooder)) (calls : List ReceiveQueue.Call),
      Receiver.Feeds Flooder.feed ∧ node.receivePhase = .ok last ∧
      node.Consumes Flooder.feed node.shared.queue.frames history calls last ∧
      node.Consumed node.shared.queue.frames [] history calls last ∧
      (∃ outcomes, outcomes.length = 2 ∧ last.engine.calls = node.engine.calls ++
        node.shared.queue.frames.zipWith .accept outcomes) ∧
      last.stats.framesReceived = 2 ∧ last.shared.queue.length = 3 ∧
      last.shared.queue.dropped = 1 := by
  have hsample : (sampleFlooded.toOption.bind fun node => (node.run
      ([.subscribe (.message (.ofNat 100)) { extent := 16 } ⟨0x10606407, 2⟩] :
        List (Call Flooder ScriptedTransmitter))).toOption).any (fun node =>
          node.shared.queue.length == 2 && node.receivePhase.toOption.any fun last =>
            decide (last.stats.framesReceived = 2 ∧ last.shared.queue.length = 3 ∧
              last.shared.queue.dropped = 1)) = true := by
    decide +kernel
  obtain ⟨-, node, -, -, hnode⟩ := exists_run_of_any hsample
  obtain ⟨hlength, hlast⟩ := Bool.and_eq_true_iff.mp hnode
  obtain ⟨hphases, htraced⟩ := receivePhase_consumes (κ := ScriptedClock) Flooder.feeds
  obtain ⟨hphase, -, hconsumed⟩ := hphases node
  cases hrun : node.receivePhase with
  | error fault =>
      rw [hrun] at hlast
      cases hlast
  | ok last =>
      rw [hrun] at hlast
      obtain ⟨history, calls, hconsumes⟩ := (hphase last).mp hrun
      obtain ⟨outcomes, houtcomes, hcalls⟩ := htraced node last hrun
      rw [eq_of_beq hlength] at houtcomes
      exact ⟨node, last, history, calls, Flooder.feeds, hrun, hconsumes,
        hconsumed _ _ _ _ _ (List.append_nil _).symm hconsumes, ⟨outcomes, houtcomes, hcalls⟩,
        of_decide_eq_true hlast⟩

end Node

end CanNode
