import CanNode.Proofs.Engine.Queue
import CanNode.Proofs.Node.History

/-!
# Histories and computations

`Node.adequate` says that every run has a history and every history is that of a run, and that a run
which ends early has come, call by call, to a node at which something else raised the fault: the
engine or a receiver, or the heap when the node reads or frees a block for the engine.  With an
engine that hands out more frames than it announces, a transmit phase can be cut short instead.  No
engine whose queue is a finite sequence does that, so for such engines `Node.run_eq_ok_iff` holds.
-/

namespace CanNode

namespace Node

variable {σ κ ρ α τ : Type}

section Stuck

variable [Engine σ]

/-- The heap raises a fault over a block that the engine hands out. -/
inductive Misuses (node : Node σ κ ρ α) (fault : Fault) : Prop where
  | release {frame transfer engine heap}
      (haccept : Engine.accept frame node.engine node.heap = .ok (.complete transfer, engine, heap))
      (hrelease : Delivery.release ⟨heap, transfer⟩ = .error fault)
  | read {head} (hpeek : Engine.peek node.engine = some head)
      (hread : node.heap.read head.payload = .error fault)
  | free {frame engine} (hpop : Engine.pop node.engine = (some frame, engine))
      (hfree : node.heap.free frame.payload = .error fault)

variable [Receiver ρ (Shared α)]

/-- The engine or a receiver raises a fault. -/
inductive Raises (node : Node σ κ ρ α) (fault : Fault) : Prop where
  | accept {frame} (haccept : Engine.accept frame node.engine node.heap = .error fault)
  | receiver {frame transfer engine heap receiver shared}
      (haccept : Engine.accept frame node.engine node.heap = .ok (.complete transfer, engine, heap))
      (hfind : node.registry.find? transfer.topic = some receiver)
      (hreceiver : Receiver.onTransfer receiver ⟨heap, transfer⟩ (shared : Shared α) =
        .error fault)
  | unsubscribe {topic} (hknown : node.registry.contains topic = true)
      (hsession : Engine.unsubscribe topic node.engine node.heap = .error fault)
  | push {deadline metadata payload}
      (hpush : Engine.push deadline metadata payload node.engine node.heap = .error fault)

/-- No step leads on from a node. -/
def Stuck (node : Node σ κ ρ α) (fault : Fault) : Prop :=
  node.Raises fault ∨ node.Misuses fault

theorem Stuck.of_withQueue {node : Node σ κ ρ α} {queue : ReceiveQueue} {fault : Fault}
    (h : (node.withQueue queue).Stuck fault) : node.Stuck fault := by
  obtain h | h := h
  · cases h with
    | accept haccept => exact .inl (.accept haccept)
    | receiver haccept hfind hreceiver => exact .inl (.receiver haccept hfind hreceiver)
    | unsubscribe hknown hsession => exact .inl (.unsubscribe hknown hsession)
    | push hpush => exact .inl (.push hpush)
  · cases h with
    | release haccept hrelease => exact .inr (.release haccept hrelease)
    | read hpeek hread => exact .inr (.read hpeek hread)
    | free hpop hfree => exact .inr (.free hpop hfree)

end Stuck

/-! ## Parts of a run -/

section Parts

variable [Engine σ] [Clock κ] [Transmitter τ]

/-- Looks lead from one node to another, each of which made a frame leave the queue. -/
inductive Passes : Node σ κ ρ α → τ → Nat → Node σ κ ρ α → τ → Prop where
  | nil {node transmitter} : Passes node transmitter 0 node transmitter
  | cons {node transmitter events next middle count last final}
      (hlook : Looks node transmitter events true next middle)
      (hrest : Passes next middle count last final) :
      Passes node transmitter (count + 1) last final

/-- More frames leave the engine's queue, one after the other, than it said were in it. -/
def Overruns (τ : Type) [Transmitter τ] (node : Node σ κ ρ α) : Prop :=
  ∃ (transmitter : τ) (last : Node σ κ ρ α) (final : τ),
    node.Passes transmitter (Engine.pending node.engine + 1) last final

variable [Receiver ρ (Shared α)]

/-- Frames are fed to the engine, and the head of its queue is looked at. -/
inductive Pumps (τ : Type) [Transmitter τ] :
    Node σ κ ρ α → List (Event ρ) → Node σ κ ρ α → Prop where
  | nil {node} : Pumps τ node [] node
  | process {node frame queue events middle rest last}
      (hdequeue : node.shared.queue.dequeue = (.ok frame, queue))
      (hprocess : (node.withQueue queue).Processes frame events middle)
      (hrest : Pumps τ middle rest last) : Pumps τ node (events ++ rest) last
  | look {node} {transmitter : τ} {events middle final rest last}
      (hlook : node.Looks transmitter events true middle final)
      (hrest : Pumps τ middle rest last) : Pumps τ node (events ++ rest) last

/-- Some of the calls are done, and the next one may have begun. -/
inductive Reaches (node : Node σ κ ρ α) :
    List (Call ρ τ) → List (Event ρ) → Node σ κ ρ α → Prop where
  | called {done call rest history last} (hdone : node.Runs done history last) :
      Reaches node (done ++ call :: rest) history last
  | pumped {done transmitter rest history middle events last}
      (hdone : node.Runs done history middle) (hpumps : middle.Pumps τ events last) :
      Reaches node (done ++ .spin transmitter :: rest) (history ++ events) last

/-- The runs of the calls are those that have a history.  A run that ends early comes to a node that
is stuck, and otherwise only the bound on the looks at an engine that overruns can end it. -/
structure Adequate (node : Node σ κ ρ α) (calls : List (Call ρ τ)) : Prop where
  sound : ∀ last, node.run calls = .ok last → ∃ history, node.Runs calls history last
  complete : ∀ last history, node.Runs calls history last →
    node.run calls = .ok last ∨ node.run calls = .error .endlessQueue ∧
      ∃ past middle, node.Reaches calls past middle ∧ middle.Overruns τ
  fault : ∀ fault, node.run calls = .error fault →
    ∃ history last, node.Reaches calls history last ∧
      (last.Stuck fault ∨ fault = .endlessQueue ∧ last.Overruns τ)

variable {node middle last : Node σ κ ρ α} {events rest : List (Event ρ)}

theorem Pumps.append (hfirst : node.Pumps τ events middle) (hrest : middle.Pumps τ rest last) :
    node.Pumps τ (events ++ rest) last := by
  induction hfirst with
  | nil => exact hrest
  | process hdequeue hprocess _ ih =>
      rw [List.append_assoc]
      exact .process hdequeue hprocess (ih hrest)
  | look hlook _ ih =>
      rw [List.append_assoc]
      exact .look hlook (ih hrest)

theorem Pumps.steps (h : node.Pumps τ events last) : node.Steps τ events last := by
  induction h with
  | nil => exact .nil
  | process hdequeue hprocess _ ih => exact .cons (.process hdequeue hprocess) ih
  | look hlook _ ih => exact .cons (.look hlook) ih

theorem Receives.pumps {count : Nat} (h : node.Receives count events last) :
    node.Pumps τ events last := by
  induction h with
  | done | dry => exact .nil
  | next hdequeue hprocess _ ih => exact .process hdequeue hprocess ih

theorem Passes.exists_pumps {transmitter final : τ} {count : Nat}
    (h : node.Passes transmitter count last final) : ∃ events, node.Pumps τ events last := by
  induction h with
  | nil => exact ⟨[], .nil⟩
  | cons hlook _ ih =>
      obtain ⟨rest, hrest⟩ := ih
      exact ⟨_, .look hlook hrest⟩

variable {history : List (Event ρ)} {calls : List (Call ρ τ)}

theorem Reaches.steps (h : node.Reaches calls history last) : node.Steps τ history last := by
  cases h with
  | called hdone => exact hdone.steps
  | pumped hdone hpumps => exact hdone.steps.append hpumps.steps

theorem Reaches.nil (node : Node σ κ ρ α) (call : Call ρ τ) (calls : List (Call ρ τ)) :
    node.Reaches (call :: calls) [] node :=
  .called .nil

theorem Pumps.reaches (h : node.Pumps τ events last) (transmitter : τ) (calls : List (Call ρ τ)) :
    node.Reaches (.spin transmitter :: calls) events last :=
  .pumped .nil h

theorem Reaches.cons {call : Call ρ τ} (hfirst : node.Performs call events middle)
    (h : middle.Reaches calls history last) :
    node.Reaches (call :: calls) (events ++ history) last := by
  cases h with
  | called hdone => exact .called (.cons hfirst hdone)
  | pumped hdone hpumps =>
      rw [← List.append_assoc]
      exact .pumped (.cons hfirst hdone) hpumps

end Parts

variable [Engine σ] {node next last : Node σ κ ρ α} {fault : Fault}

/-! ## Setting up -/

theorem start_eq_ok {engine : σ} {arena : Arena} {clock : κ} {shared : Shared α}
    {config : NodeConfig} {capacity : Nat}
    (h : start engine arena clock shared config capacity = .ok node) :
    ∃ heap, Heap.format arena = .ok heap ∧
      node = ⟨heap, Engine.configure config engine, clock, shared, Registry.empty capacity, config,
        {}⟩ := by
  unfold start at h
  cases hcheck : check shared.queue config arena.size with
  | error error =>
      rw [hcheck] at h
      cases h
  | ok checked =>
      rw [hcheck] at h
      cases hformat : Heap.format arena with
      | error error => simp [hformat, bind, Except.bind, throw, throwThe, MonadExceptOf.throw] at h
      | ok heap =>
          simp only [hformat] at h
          cases h
          exact ⟨heap, rfl, rfl⟩

/-! ## The receive phase -/

section Receive

variable [Receiver ρ (Shared α)]

theorem process_eq_ok_iff {frame : ReceivedFrame} :
    node.process frame = .ok next ↔ ∃ events, node.Processes frame events next := by
  constructor
  · intro h
    obtain ⟨⟨outcome, engine, heap⟩, haccept, h⟩ := Fault.bind_eq_ok h
    cases outcome with
    | rejected => cases h; exact ⟨_, .rejected haccept⟩
    | fragment => cases h; exact ⟨_, .fragment haccept⟩
    | outOfMemory => cases h; exact ⟨_, .outOfMemory haccept⟩
    | complete transfer =>
        obtain ⟨⟨handled, shared⟩, hdispatch, h⟩ := Fault.bind_eq_ok h
        obtain ⟨released, hrelease, h⟩ := Fault.bind_eq_ok h
        unfold Registry.dispatch at hdispatch
        split at hdispatch
        · next hfind =>
            cases hdispatch
            cases h
            exact ⟨_, .unhandled haccept hfind hrelease⟩
        · next receiver hfind =>
            obtain ⟨world, hreceiver, hdispatch⟩ := Fault.bind_eq_ok hdispatch
            cases hdispatch
            cases h
            exact ⟨_, .delivered haccept hfind hreceiver hrelease⟩
  · rintro ⟨events, h⟩
    cases h with
    | rejected haccept | fragment haccept | outOfMemory haccept =>
        simp [process, haccept, bind, Except.bind, pure, Except.pure]
    | @unhandled transfer engine heap released haccept hfind hrelease =>
        have hdispatch : node.registry.dispatch ⟨heap, transfer⟩ node.shared =
            .ok (false, node.shared) := by
          unfold Transfer.topic at hfind
          simp only [Registry.dispatch, Delivery.metadata, hfind]
        simp [process, deliver, haccept, hdispatch, hrelease, bind, Except.bind, pure, Except.pure]
    | @delivered transfer engine heap receiver shared released haccept hfind hreceiver hrelease =>
        have hdispatch : node.registry.dispatch ⟨heap, transfer⟩ node.shared =
            .ok (true, shared) := by
          unfold Transfer.topic at hfind
          simp only [Registry.dispatch, Delivery.metadata, hfind, hreceiver]
          rfl
        simp [process, deliver, haccept, hdispatch, hrelease, bind, Except.bind, pure, Except.pure]

theorem stuck_of_process {frame : ReceivedFrame} (h : node.process frame = .error fault) :
    node.Stuck fault := by
  unfold process at h
  obtain haccept | ⟨⟨outcome, engine, heap⟩, haccept, h⟩ := Fault.bind_eq_error h
  · exact .inl (.accept haccept)
  cases outcome with
  | rejected | fragment | outOfMemory => cases h
  | complete transfer =>
      obtain hdispatch | ⟨dispatched, -, h⟩ := Fault.bind_eq_error h
      · unfold Registry.dispatch at hdispatch
        split at hdispatch
        · cases hdispatch
        · next receiver hfind =>
            obtain hreceiver | ⟨_, -, h⟩ := Fault.bind_eq_error hdispatch
            · exact .inl (.receiver haccept hfind hreceiver)
            · cases h
      · obtain hrelease | ⟨_, -, h⟩ := Fault.bind_eq_error h
        · exact .inr (.release haccept hrelease)
        · cases h

theorem processQueued_eq_ok_iff {count : Nat} :
    node.processQueued count = .ok last ↔ ∃ events, node.Receives count events last := by
  induction count generalizing node with
  | zero =>
      constructor
      · intro h
        cases h
        exact ⟨[], .done⟩
      · rintro ⟨events, h⟩
        cases h
        rfl
  | succ count ih =>
      unfold processQueued
      rcases hdequeue : node.shared.queue.dequeue with ⟨answer, queue⟩
      cases answer with
      | error error =>
          constructor
          · intro h
            cases h
            exact ⟨[], .dry hdequeue⟩
          · rintro ⟨events, h⟩
            cases h with
            | dry _ => rfl
            | next hother _ _ => cases hdequeue.symm.trans hother
      | ok frame =>
          constructor
          · intro h
            obtain ⟨middle, hprocess, hrest⟩ := Fault.bind_eq_ok h
            obtain ⟨events, hprocess⟩ := process_eq_ok_iff.mp hprocess
            obtain ⟨rest, hrest⟩ := ih.mp hrest
            exact ⟨_, .next hdequeue hprocess hrest⟩
          · rintro ⟨events, h⟩
            cases h with
            | dry hother => cases hdequeue.symm.trans hother
            | next hother hprocess hrest =>
                cases hdequeue.symm.trans hother
                have hprocess := process_eq_ok_iff.mpr ⟨_, hprocess⟩
                have hrest := ih.mpr ⟨_, hrest⟩
                simp only [withQueue] at hprocess
                simp [hprocess, hrest, bind, Except.bind]

theorem exists_stuck_of_processQueued [Clock κ] [Transmitter τ] {count : Nat}
    (h : node.processQueued count = .error fault) :
    ∃ events last, node.Pumps τ events last ∧ last.Stuck fault := by
  induction count generalizing node with
  | zero => cases h
  | succ count ih =>
      unfold processQueued at h
      split at h
      · cases h
      next frame queue hdequeue =>
      obtain hprocess | ⟨middle, hprocess, hrest⟩ := Fault.bind_eq_error h
      · exact ⟨[], node, .nil, (stuck_of_process hprocess).of_withQueue⟩
      · obtain ⟨events, hprocess⟩ := process_eq_ok_iff.mp hprocess
        obtain ⟨rest, last, hrest, hstuck⟩ := ih hrest
        exact ⟨_, last, .process hdequeue hprocess hrest, hstuck⟩

end Receive

/-! ## The transmit phase -/

section Transmit

variable [Clock κ] [Transmitter τ] {transmitter middle final : τ}

theorem Looks.drain_succ {events : List (Event ρ)} {again : Bool}
    (h : node.Looks transmitter events again next middle) (budget : Nat) :
    node.drain transmitter (budget + 1) =
      if again then next.drain middle budget else .ok (next, middle) := by
  cases h with
  | empty hclock hpeek => simp [drain, now, hclock, hpeek]
  | expired hclock hpeek hlate hpop hfree =>
      simp [drain, now, hclock, hpeek, hlate, retireHead, hpop, hfree, countExpired, bind,
        Except.bind, pure, Except.pure]
  | expiredKept hclock hpeek hlate hpop =>
      simp [drain, now, hclock, hpeek, hlate, retireHead, hpop, bind, Except.bind, pure,
        Except.pure]
  | refused hclock hpeek hdue hread hoffer =>
      simp [drain, now, hclock, hpeek, hdue, hread, hoffer, bind, Except.bind, pure, Except.pure]
  | sent hclock hpeek hdue hread hoffer hpop hfree =>
      simp [drain, now, hclock, hpeek, hdue, hread, hoffer, retireHead, hpop, hfree, countSent,
        bind, Except.bind, pure, Except.pure]
  | sentKept hclock hpeek hdue hread hoffer hpop =>
      simp [drain, now, hclock, hpeek, hdue, hread, hoffer, retireHead, hpop, bind, Except.bind,
        pure, Except.pure]

theorem looks_or_misuses (node : Node σ κ ρ α) (transmitter : τ) :
    (∃ events again next middle, node.Looks transmitter events again next middle) ∨
      ∃ fault, node.Misuses fault ∧
        ∀ budget, node.drain transmitter (budget + 1) = .error fault := by
  rcases hclock : Clock.read node.clock with ⟨time, clock⟩
  cases hpeek : Engine.peek node.engine with
  | none => exact .inl ⟨_, _, _, _, .empty hclock hpeek⟩
  | some head =>
  by_cases hlate : head.deadline < time
  · rcases hpop : Engine.pop node.engine with ⟨_ | frame, engine⟩
    · exact .inl ⟨_, _, _, _, .expiredKept hclock hpeek hlate hpop⟩
    cases hfree : node.heap.free frame.payload with
    | ok heap => exact .inl ⟨_, _, _, _, .expired hclock hpeek hlate hpop hfree⟩
    | error fault =>
        refine .inr ⟨fault, .free hpop hfree, fun budget => ?_⟩
        simp [drain, now, hclock, hpeek, hlate, retireHead, hpop, hfree, bind, Except.bind]
  cases hread : node.heap.read head.payload with
  | error fault =>
      refine .inr ⟨fault, .read hpeek hread, fun budget => ?_⟩
      simp [drain, now, hclock, hpeek, hlate, hread, bind, Except.bind]
  | ok data =>
  rcases hoffer : Transmitter.transmit ⟨head.id, data, head.deadline⟩ transmitter with
    ⟨_ | _, final⟩
  · exact .inl ⟨_, _, _, _, .refused hclock hpeek hlate hread hoffer⟩
  rcases hpop : Engine.pop node.engine with ⟨_ | frame, engine⟩
  · exact .inl ⟨_, _, _, _, .sentKept hclock hpeek hlate hread hoffer hpop⟩
  cases hfree : node.heap.free frame.payload with
  | ok heap => exact .inl ⟨_, _, _, _, .sent hclock hpeek hlate hread hoffer hpop hfree⟩
  | error fault =>
      refine .inr ⟨fault, .free hpop hfree, fun budget => ?_⟩
      simp [drain, now, hclock, hpeek, hlate, hread, hoffer, retireHead, hpop, hfree, bind,
        Except.bind]

theorem Passes.drain_add {count : Nat} (h : node.Passes transmitter count last final)
    (budget : Nat) : node.drain transmitter (count + budget) = last.drain final budget := by
  induction h with
  | nil => rw [Nat.zero_add]
  | cons hlook _ ih => rw [Nat.add_right_comm, hlook.drain_succ, if_pos rfl, ih]

theorem Passes.drain_eq_error {count : Nat} (h : node.Passes transmitter count last final) :
    node.drain transmitter count = .error .endlessQueue :=
  h.drain_add 0

/-- The queue is drained to an end, or all looks are used up, or the heap raises a fault. -/
theorem drain_cases (node : Node σ κ ρ α) (transmitter : τ) (budget : Nat) :
    (∃ events last final, node.Drains transmitter events last final ∧
      node.drain transmitter budget = .ok (last, final)) ∨
    (∃ last final, node.Passes transmitter budget last final) ∨
    ∃ fault count last final, node.Passes transmitter count last final ∧ last.Misuses fault ∧
      node.drain transmitter budget = .error fault := by
  induction budget generalizing node transmitter with
  | zero => exact .inr (.inl ⟨node, transmitter, .nil⟩)
  | succ budget ih =>
      obtain ⟨events, again, next, middle, hlook⟩ | ⟨fault, hmisuses, hdrain⟩ :=
        looks_or_misuses node transmitter
      · rw [hlook.drain_succ]
        cases again with
        | false => exact .inl ⟨_, _, _, .stop hlook, rfl⟩
        | true =>
            obtain ⟨rest, last, final, hdrains, hdrain⟩ | ⟨last, final, hpasses⟩ |
              ⟨fault, count, last, final, hpasses, hmisuses, hdrain⟩ := ih next middle
            · exact .inl ⟨_, _, _, .more hlook hdrains, hdrain⟩
            · exact .inr (.inl ⟨_, _, .cons hlook hpasses⟩)
            · exact .inr (.inr ⟨_, _, _, _, .cons hlook hpasses, hmisuses, hdrain⟩)
      · exact .inr (.inr ⟨_, _, _, _, .nil, hmisuses, hdrain budget⟩)

theorem exists_drains_of_drain {budget : Nat}
    (h : node.drain transmitter budget = .ok (last, final)) :
    ∃ events, node.Drains transmitter events last final := by
  obtain ⟨events, _, _, hdrains, hdrain⟩ | ⟨_, _, hpasses⟩ | ⟨_, _, _, _, -, -, hdrain⟩ :=
    drain_cases node transmitter budget
  · cases hdrain.symm.trans h
    exact ⟨events, hdrains⟩
  · cases hpasses.drain_eq_error.symm.trans h
  · cases hdrain.symm.trans h

/-- A queue that can be drained to an end is, unless all looks are used up before. -/
theorem Drains.drain_eq_or_passes {events : List (Event ρ)}
    (h : node.Drains transmitter events last final) (budget : Nat) :
    node.drain transmitter budget = .ok (last, final) ∨
      ∃ next middle, node.Passes transmitter budget next middle := by
  induction h generalizing budget with
  | stop hlook =>
      cases budget with
      | zero => exact .inr ⟨_, _, .nil⟩
      | succ budget => exact .inl (hlook.drain_succ budget)
  | more hlook _ ih =>
      cases budget with
      | zero => exact .inr ⟨_, _, .nil⟩
      | succ budget =>
          rw [hlook.drain_succ]
          obtain hdrain | ⟨next, middle, hpasses⟩ := ih budget
          · exact .inl hdrain
          · exact .inr ⟨_, _, .cons hlook hpasses⟩

/-- The queue is drained to an end exactly if some number of looks at it is enough. -/
theorem drains_iff_exists_drain :
    (∃ events, node.Drains transmitter events last final) ↔
      ∃ budget, node.drain transmitter budget = .ok (last, final) := by
  constructor
  · rintro ⟨events, h⟩
    induction h with
    | stop hlook => exact ⟨1, hlook.drain_succ 0⟩
    | more hlook _ ih =>
        obtain ⟨budget, hbudget⟩ := ih
        exact ⟨budget + 1, (hlook.drain_succ budget).trans hbudget⟩
  · rintro ⟨budget, h⟩
    exact exists_drains_of_drain h

/-! An engine with a finite queue is looked at only finitely often. -/

variable {queue : σ → List QueuedFrame} (hqueues : Engine.Queues queue)

include hqueues

theorem Passes.length_queue {count : Nat} (h : node.Passes transmitter count last final) :
    (queue node.engine).length = count + (queue last.engine).length := by
  induction h with
  | nil => rw [Nat.zero_add]
  | cons hlook _ ih =>
      cases hlook with
      | expired _ _ _ hpop | sent _ _ _ _ _ hpop =>
          rw [hqueues.queue_eq_cons hpop, List.length_cons]
          exact (congrArg Nat.succ ih).trans (Nat.succ_add _ _).symm

theorem not_overruns : ¬ node.Overruns τ := by
  rintro ⟨transmitter, last, final, hpasses⟩
  have hlength := hpasses.length_queue hqueues
  rw [hqueues.pending] at hlength
  omega

end Transmit

/-! ## Calls -/

section Calls

variable [Clock κ]

private theorem exists_handles_subscribe (node : Node σ κ ρ α) (topic : Topic)
    (params : SessionParams) (receiver : ρ) :
    ∃ events, node.Handles (τ := τ) (.subscribe topic params receiver) events
      (node.subscribe topic params receiver).2 := by
  unfold subscribe Registry.subscribe
  by_cases hvalid : topic.isValid = true
  case neg =>
    have hinvalid : topic.isValid = false := Bool.eq_false_iff.mpr hvalid
    simp only [hinvalid, Bool.not_false, if_true]
    exact ⟨_, .invalidPort hinvalid⟩
  simp only [hvalid, Bool.not_true, Bool.false_eq_true, if_false]
  split
  · next hfull =>
      simp only [Bool.and_eq_true, Bool.not_eq_true', beq_iff_eq] at hfull
      exact ⟨_, .registryFull hvalid hfull.1 hfull.2⟩
  next hfull =>
  have hroom : node.registry.contains topic = true ∨
      node.registry.length ≠ node.registry.capacity := by
    cases hknown : node.registry.contains topic with
    | true => exact .inl rfl
    | false =>
        rw [hknown] at hfull
        simpa using hfull
  rcases hsession : Engine.subscribe topic params node.engine with ⟨error | ⟨⟩, engine⟩
  · exact ⟨_, .sessionRefused hvalid hroom hsession⟩
  cases hinsert : node.registry.insert topic receiver with
  | some registry => exact ⟨_, .subscribed hvalid hsession hinsert⟩
  | none =>
      obtain ⟨hnew, hlength⟩ := (Registry.insert_eq_none_iff _ _ _).mp hinsert
      simp [Registry.contains, hnew, hlength] at hroom

/-- The answer to a subscription is the last event of it. -/
theorem Handles.subscribe_eq {topic : Topic} {params : SessionParams} {receiver : ρ}
    {events : List (Event ρ)}
    (h : node.Handles (τ := τ) (.subscribe topic params receiver) events next) :
    ∃ answer, node.subscribe topic params receiver = (answer, next) ∧
      events.getLast? = some (.subscribed topic receiver answer) := by
  cases h with
  | invalidPort hinvalid =>
      exact ⟨_, by simp [subscribe, Registry.subscribe, hinvalid], rfl⟩
  | registryFull hvalid hnew hfull =>
      exact ⟨_, by simp [subscribe, Registry.subscribe, hvalid, hnew, hfull], rfl⟩
  | sessionRefused hvalid hroom hsession =>
      have hopen : ¬ (node.registry.contains topic = false ∧
          node.registry.length = node.registry.capacity) := by
        rintro ⟨hnew, hfull⟩
        obtain hknown | hroom := hroom
        · rw [hnew] at hknown
          cases hknown
        · exact hroom hfull
      exact ⟨_, by simp [subscribe, Registry.subscribe, hvalid, hopen, hsession], rfl⟩
  | subscribed hvalid hsession hinsert =>
      have hopen : ¬ (node.registry.contains topic = false ∧
          node.registry.length = node.registry.capacity) := by
        rintro ⟨hnew, hfull⟩
        have hnone := Option.not_isSome_iff_eq_none.mp (Bool.not_eq_true _ |>.mpr hnew)
        rw [(Registry.insert_eq_none_iff _ _ _).mpr ⟨hnone, hfull⟩] at hinsert
        cases hinsert
      exact ⟨_, by simp [subscribe, Registry.subscribe, hvalid, hopen, hsession, hinsert], rfl⟩

variable [Receiver ρ (Shared α)] [Transmitter τ]

theorem Handles.perform_eq {call : Call ρ τ} {events : List (Event ρ)}
    (h : node.Handles call events next) : node.perform call = .ok next := by
  cases call with
  | subscribe topic params receiver =>
      obtain ⟨answer, hanswer, -⟩ := h.subscribe_eq
      simp [perform, hanswer]
  | unsubscribe topic =>
      cases h with
      | unknown hunknown => simp [perform, unsubscribe, Registry.unsubscribe, hunknown, bind,
          Except.bind, pure, Except.pure]
      | unsubscribed hknown hsession => simp [perform, unsubscribe, Registry.unsubscribe, hknown,
          hsession, bind, Except.bind, pure, Except.pure]
  | enqueue timeout metadata payload =>
      cases h with
      | enqueued hclock hpush | notEnqueued hclock hpush =>
          simp [perform, enqueue, now, hclock, hpush, bind, Except.bind, pure, Except.pure]
  | receive id data =>
      cases h with
      | received hclock => simp [perform, receive, now, hclock, withQueue]
  | arrive arrival =>
      cases h
      rfl
  | readClock =>
      cases h with
      | clockRead hclock => simp [perform, now, hclock]
  | spin transmitter => cases h

theorem exists_performs_of_perform {call : Call ρ τ} (h : node.perform call = .ok next) :
    ∃ events, node.Performs call events next := by
  cases call with
  | subscribe topic params receiver =>
      cases h
      obtain ⟨events, hhandle⟩ := exists_handles_subscribe node topic params receiver
      exact ⟨events, .handled hhandle⟩
  | unsubscribe topic =>
      obtain ⟨⟨removed, result⟩, hrun, rfl⟩ := Fault.map_eq_ok h
      obtain ⟨⟨removed, registry, engine, heap⟩, hremove, heq⟩ := Fault.bind_eq_ok hrun
      cases heq
      unfold Registry.unsubscribe at hremove
      split at hremove
      · next hknown =>
          obtain ⟨⟨closed, engine, heap⟩, hsession, heq⟩ := Fault.bind_eq_ok hremove
          cases heq
          exact ⟨_, .handled (.unsubscribed hknown hsession)⟩
      · next hunknown =>
          cases hremove
          exact ⟨_, .handled (.unknown (Bool.eq_false_iff.mpr hunknown))⟩
  | enqueue timeout metadata payload =>
      obtain ⟨⟨answer, result⟩, hrun, rfl⟩ := Fault.map_eq_ok h
      obtain ⟨⟨answer, engine, heap⟩, hpush, heq⟩ := Fault.bind_eq_ok hrun
      cases answer with
      | ok count =>
          cases heq
          exact ⟨_, .handled (.enqueued rfl hpush)⟩
      | error error =>
          cases heq
          exact ⟨_, .handled (.notEnqueued rfl hpush)⟩
  | receive id data =>
      cases h
      exact ⟨_, .handled (.received rfl)⟩
  | arrive arrival =>
      cases h
      exact ⟨_, .handled .arrived⟩
  | readClock =>
      cases h
      exact ⟨_, .handled (.clockRead rfl)⟩
  | spin transmitter =>
      obtain ⟨⟨last, final⟩, hspin, rfl⟩ := Fault.map_eq_ok h
      obtain ⟨middle, hreceive, hdrain⟩ := Fault.bind_eq_ok hspin
      obtain ⟨received, hreceive⟩ := processQueued_eq_ok_iff.mp hreceive
      obtain ⟨sent, hdrain⟩ := exists_drains_of_drain hdrain
      exact ⟨_, .spun hreceive hdrain⟩

/-- Every run of a node has a history. -/
theorem exists_runs_of_run {calls : List (Call ρ τ)} (h : node.run calls = .ok last) :
    ∃ history, node.Runs calls history last := by
  induction calls generalizing node with
  | nil =>
      cases h
      exact ⟨[], .nil⟩
  | cons call rest ih =>
      obtain ⟨middle, hfirst, hrest⟩ := Fault.bind_eq_ok h
      obtain ⟨events, hfirst⟩ := exists_performs_of_perform hfirst
      obtain ⟨history, hrest⟩ := ih hrest
      exact ⟨_, .cons hfirst hrest⟩

theorem Performs.perform_eq_or_overruns {call : Call ρ τ} {events : List (Event ρ)}
    (h : node.Performs call events next) (rest : List (Call ρ τ)) :
    node.perform call = .ok next ∨ node.perform call = .error .endlessQueue ∧
      ∃ past middle, node.Reaches (call :: rest) past middle ∧ middle.Overruns τ := by
  cases h with
  | handled hhandle => exact .inl hhandle.perform_eq
  | @spun transmitter received middle sent last final hreceive hdrain =>
      have hphase := processQueued_eq_ok_iff.mpr ⟨_, hreceive⟩
      obtain hdrain | ⟨last, final, hpasses⟩ :=
        hdrain.drain_eq_or_passes (Engine.pending middle.engine + 1)
      · refine .inl ?_
        simp [perform, spin, receivePhase, transmitPhase, hphase, hdrain, bind, Except.bind]
      · have hfault := hpasses.drain_eq_error
        have hreceived : node.Pumps τ received middle := hreceive.pumps
        refine .inr ⟨?_, received, middle, hreceived.reaches transmitter rest,
          transmitter, last, final, hpasses⟩
        simp [perform, spin, receivePhase, transmitPhase, hphase, hfault, bind, Except.bind]

theorem Runs.run_eq_or_overruns {calls : List (Call ρ τ)} {history : List (Event ρ)}
    (h : node.Runs calls history last) :
    node.run calls = .ok last ∨ node.run calls = .error .endlessQueue ∧
      ∃ past middle, node.Reaches calls past middle ∧ middle.Overruns τ := by
  induction h with
  | nil => exact .inl rfl
  | @cons _ _ _ _ rest _ _ hfirst _ ih =>
      obtain hperform | ⟨hperform, past, middle, hreaches, hoverruns⟩ :=
        hfirst.perform_eq_or_overruns rest
      · obtain hrun | ⟨hrun, past, middle, hreaches, hoverruns⟩ := ih
        · exact .inl (by simp [run, hperform, hrun, bind, Except.bind])
        · exact .inr ⟨by simp [run, hperform, hrun, bind, Except.bind], _, middle,
            hreaches.cons hfirst, hoverruns⟩
      · exact .inr ⟨by simp [run, hperform, bind, Except.bind], past, middle,
          hreaches, hoverruns⟩

theorem exists_reaches_of_perform {call : Call ρ τ} (h : node.perform call = .error fault)
    (rest : List (Call ρ τ)) :
    ∃ history last, node.Reaches (call :: rest) history last ∧
      (last.Stuck fault ∨ fault = .endlessQueue ∧ last.Overruns τ) := by
  cases call with
  | subscribe | receive | arrive | readClock => cases h
  | unsubscribe topic =>
      obtain hremove | ⟨_, -, h⟩ := Fault.bind_eq_error (Fault.map_eq_error h)
      · unfold Registry.unsubscribe at hremove
        split at hremove
        · next hknown =>
            obtain hsession | ⟨_, -, h⟩ := Fault.bind_eq_error hremove
            · exact ⟨[], node, .nil node _ rest, .inl (.inl (.unsubscribe hknown hsession))⟩
            · cases h
        · cases hremove
      · cases h
  | enqueue timeout metadata payload =>
      obtain hpush | ⟨⟨answer, _, _⟩, -, h⟩ := Fault.bind_eq_error (Fault.map_eq_error h)
      · exact ⟨[], node, .nil node _ rest, .inl (.inl (.push hpush))⟩
      · cases answer <;> cases h
  | spin transmitter =>
      obtain hreceive | ⟨middle, hreceive, hdrain⟩ := Fault.bind_eq_error (Fault.map_eq_error h)
      · obtain ⟨events, last, hpumps, hstuck⟩ :=
          exists_stuck_of_processQueued (τ := τ) hreceive
        exact ⟨events, last, hpumps.reaches transmitter rest, .inl hstuck⟩
      obtain ⟨received, hreceive⟩ := processQueued_eq_ok_iff.mp hreceive
      have hreceived : node.Pumps τ received middle := hreceive.pumps
      obtain ⟨_, _, _, -, hok⟩ | ⟨last, final, hpasses⟩ |
        ⟨_, count, last, final, hpasses, hmisuses, hfault⟩ :=
          drain_cases middle transmitter (Engine.pending middle.engine + 1)
      · cases hok.symm.trans hdrain
      · cases hpasses.drain_eq_error.symm.trans hdrain
        exact ⟨received, middle, hreceived.reaches transmitter rest,
          .inr ⟨rfl, transmitter, last, final, hpasses⟩⟩
      · cases hfault.symm.trans hdrain
        obtain ⟨sent, hsent⟩ := hpasses.exists_pumps
        exact ⟨_, last, (hreceived.append hsent).reaches transmitter rest, .inl (.inr hmisuses)⟩

theorem exists_reaches_of_run {calls : List (Call ρ τ)} (h : node.run calls = .error fault) :
    ∃ history last, node.Reaches calls history last ∧
      (last.Stuck fault ∨ fault = .endlessQueue ∧ last.Overruns τ) := by
  induction calls generalizing node with
  | nil => cases h
  | cons call rest ih =>
      obtain hfirst | ⟨middle, hfirst, hrest⟩ := Fault.bind_eq_error h
      · exact exists_reaches_of_perform hfirst rest
      · obtain ⟨events, hfirst⟩ := exists_performs_of_perform hfirst
        obtain ⟨history, last, hreaches, hends⟩ := ih hrest
        exact ⟨_, last, hreaches.cons hfirst, hends⟩

theorem adequate (node : Node σ κ ρ α) (calls : List (Call ρ τ)) : node.Adequate calls where
  sound _ := exists_runs_of_run
  complete _ _ := Runs.run_eq_or_overruns
  fault _ := exists_reaches_of_run

/-! An engine with a finite queue lets every phase end. -/

variable {queue : σ → List QueuedFrame} (hqueues : Engine.Queues queue)

include hqueues

theorem run_eq_ok_iff {calls : List (Call ρ τ)} :
    node.run calls = .ok last ↔ ∃ history, node.Runs calls history last := by
  constructor
  · exact exists_runs_of_run
  · rintro ⟨history, h⟩
    obtain hrun | ⟨-, past, middle, -, hoverruns⟩ := h.run_eq_or_overruns
    · exact hrun
    · exact absurd hoverruns (not_overruns hqueues)

theorem exists_stuck_of_run {calls : List (Call ρ τ)} (h : node.run calls = .error fault) :
    ∃ events last, node.Steps τ events last ∧ last.Stuck fault := by
  obtain ⟨history, last, hreaches, hstuck | ⟨-, hoverruns⟩⟩ := exists_reaches_of_run h
  · exact ⟨history, last, hreaches.steps, hstuck⟩
  · exact absurd hoverruns (not_overruns hqueues)

end Calls

end Node

end CanNode
