import CanNode.Proofs.Node.Computation
import CanNode.Proofs.Node.Script
import Mathlib.Algebra.GroupWithZero.Nat

/-!
# The counters are exact

A node counts what it does while it does it, on many branches, and some things only after a further
call has succeeded.  `Node.Exact` says what the counters show after a history, and
`Node.stats_exact` that they show it after every run, with any engine.  Counters have 32 bits and
wrap, so every equation between them holds modulo `2 ^ 32`.
-/

namespace CanNode

def AcceptOutcome.isComplete : AcceptOutcome → Bool
  | .complete _ => true
  | _ => false

theorem AcceptOutcome.length_eq (outcomes : List AcceptOutcome) :
    outcomes.length = outcomes.countP isComplete + outcomes.count .rejected +
      outcomes.count .outOfMemory + outcomes.count .fragment := by
  induction outcomes with
  | nil => rfl
  | cons outcome rest ih =>
      rw [List.countP_cons, List.length_cons]
      cases outcome <;> simp [ih, isComplete] <;> omega

namespace Node

variable {σ κ ρ α τ : Type}

/-! ## What is counted -/

def Event.outcome? : Event ρ → Option AcceptOutcome
  | .engine (.accept _ outcome) _ => some outcome
  | _ => none

def Event.isDelivery : Event ρ → Bool
  | .delivered _ _ => true
  | _ => false

def Event.isAcceptance : Event ρ → Bool
  | .offered _ true => true
  | _ => false

def Event.isPop : Event ρ → Bool
  | .engine (.pop (some _)) _ => true
  | _ => false

def Event.enqueued? : Event ρ → Option (Except EnqueueError Nat)
  | .engine (.push _ _ _ (.ok frames)) _ => some (.ok frames)
  | .engine (.push _ _ _ (.error error)) _ => some (.error (.ofEngine error))
  | _ => none

def outcomes (history : List (Event ρ)) : List AcceptOutcome :=
  history.filterMap Event.outcome?

def enqueueAnswers (history : List (Event ρ)) : List (Except EnqueueError Nat) :=
  history.filterMap Event.enqueued?

/-- How many frames the transmitter accepted and the engine handed out right after. -/
def sentCount : List (Event ρ) → Nat
  | first :: second :: rest =>
      (first.isAcceptance && second.isPop).toNat + sentCount (second :: rest)
  | _ => 0

/-- The counters show what a history holds. -/
structure Exact (history : List (Event ρ)) (stats : NodeStats) : Prop where
  framesReceived : stats.framesReceived = .ofNat (outcomes history).length
  transfersReceived :
    stats.transfersReceived = .ofNat ((outcomes history).countP AcceptOutcome.isComplete)
  rejected : stats.rejected = .ofNat ((outcomes history).count .rejected)
  receiveOutOfMemory : stats.receiveOutOfMemory = .ofNat ((outcomes history).count .outOfMemory)
  dispatched : stats.dispatched = .ofNat (history.countP Event.isDelivery)
  transfers : stats.transfersReceived = stats.dispatched + stats.unhandled
  frames : stats.framesReceived = stats.transfersReceived + stats.rejected +
    stats.receiveOutOfMemory + .ofNat ((outcomes history).count .fragment)
  sent : stats.sent = .ofNat (sentCount history)
  popped : stats.sent + stats.expired = .ofNat (history.countP Event.isPop)
  framesEnqueued :
    stats.framesEnqueued = .ofNat ((enqueueAnswers history).filterMap Except.toOption).sum
  enqueueFailures :
    stats.enqueueFailures = .ofNat ((enqueueAnswers history).countP (·.toOption.isNone))

/-! ## How counters advance -/

structure Advances (before : NodeStats) (history : List (Event ρ)) (after : NodeStats) : Prop where
  framesReceived : after.framesReceived = before.framesReceived + .ofNat (outcomes history).length
  transfersReceived : after.transfersReceived =
    before.transfersReceived + .ofNat ((outcomes history).countP AcceptOutcome.isComplete)
  rejected : after.rejected = before.rejected + .ofNat ((outcomes history).count .rejected)
  receiveOutOfMemory : after.receiveOutOfMemory =
    before.receiveOutOfMemory + .ofNat ((outcomes history).count .outOfMemory)
  dispatched : after.dispatched = before.dispatched + .ofNat (history.countP Event.isDelivery)
  transfers : before.transfersReceived = before.dispatched + before.unhandled →
    after.transfersReceived = after.dispatched + after.unhandled
  sent : after.sent = before.sent + .ofNat (sentCount history)
  popped : after.sent + after.expired =
    before.sent + before.expired + .ofNat (history.countP Event.isPop)
  framesEnqueued : after.framesEnqueued =
    before.framesEnqueued + .ofNat ((enqueueAnswers history).filterMap Except.toOption).sum
  enqueueFailures : after.enqueueFailures =
    before.enqueueFailures + .ofNat ((enqueueAnswers history).countP (·.toOption.isNone))

section Advances

variable {before middle after : NodeStats} {events history : List (Event ρ)}

theorem outcomes_append : outcomes (events ++ history) = outcomes events ++ outcomes history :=
  List.filterMap_append

theorem enqueueAnswers_append :
    enqueueAnswers (events ++ history) = enqueueAnswers events ++ enqueueAnswers history :=
  List.filterMap_append

/-- No pair of events is split between two histories if the second does not begin with a pop. -/
theorem sentCount_append (hhead : ∀ event ∈ history.head?, event.isPop = false) :
    sentCount (events ++ history) = sentCount events + sentCount history := by
  induction events with
  | nil => simp [sentCount]
  | cons first rest ih =>
      cases rest with
      | cons second rest =>
          simp only [List.cons_append, sentCount] at ih ⊢
          rw [ih, Nat.add_assoc]
      | nil =>
          cases history with
          | nil => simp [sentCount]
          | cons second rest => simp [sentCount, hhead second rfl]

theorem sentCount_eq_zero (h : ∀ event ∈ events, event.isPop = false) : sentCount events = 0 := by
  induction events with
  | nil => rfl
  | cons first rest ih =>
      have hhead : ∀ event ∈ rest.head?, event.isPop = false := fun event hevent =>
        h event (List.mem_cons_of_mem first (List.mem_of_mem_head? hevent))
      rw [← List.singleton_append, sentCount_append hhead, ih fun event hevent =>
        h event (List.mem_cons_of_mem first hevent)]
      rfl

private theorem add_ofNat_add (counter : UInt32) (m n : Nat) :
    counter + .ofNat m + .ofNat n = counter + .ofNat (m + n) := by
  rw [UInt32.ofNat_add, UInt32.add_assoc]

theorem Advances.append (hfirst : Advances before events middle)
    (hrest : Advances middle history after)
    (hhead : ∀ event ∈ history.head?, event.isPop = false) :
    Advances before (events ++ history) after where
  framesReceived := by
    rw [hrest.framesReceived, hfirst.framesReceived, add_ofNat_add, outcomes_append,
      List.length_append]
  transfersReceived := by
    rw [hrest.transfersReceived, hfirst.transfersReceived, add_ofNat_add, outcomes_append,
      List.countP_append]
  rejected := by
    rw [hrest.rejected, hfirst.rejected, add_ofNat_add, outcomes_append, List.count_append]
  receiveOutOfMemory := by
    rw [hrest.receiveOutOfMemory, hfirst.receiveOutOfMemory, add_ofNat_add, outcomes_append,
      List.count_append]
  dispatched := by
    rw [hrest.dispatched, hfirst.dispatched, add_ofNat_add, List.countP_append]
  transfers := hrest.transfers ∘ hfirst.transfers
  sent := by
    rw [hrest.sent, hfirst.sent, add_ofNat_add, sentCount_append hhead]
  popped := by
    rw [hrest.popped, hfirst.popped, add_ofNat_add, List.countP_append]
  framesEnqueued := by
    rw [hrest.framesEnqueued, hfirst.framesEnqueued, add_ofNat_add, enqueueAnswers_append,
      List.filterMap_append, List.sum_append]
  enqueueFailures := by
    rw [hrest.enqueueFailures, hfirst.enqueueFailures, add_ofNat_add, enqueueAnswers_append,
      List.countP_append]

def Event.Silent (event : Event ρ) : Prop :=
  event.outcome? = none ∧ event.isDelivery = false ∧ event.isPop = false ∧ event.enqueued? = none

theorem Advances.of_silent {stats : NodeStats} (h : ∀ event ∈ events, event.Silent) :
    Advances stats events stats := by
  have houtcomes : outcomes events = [] :=
    List.filterMap_eq_nil_iff.mpr fun event hevent => (h event hevent).1
  have hdeliveries : events.countP Event.isDelivery = 0 :=
    List.countP_eq_zero.mpr fun event hevent => by simp [(h event hevent).2.1]
  have hpops : events.countP Event.isPop = 0 :=
    List.countP_eq_zero.mpr fun event hevent => by simp [(h event hevent).2.2.1]
  have hsent : sentCount events = 0 := sentCount_eq_zero fun event hevent => (h event hevent).2.2.1
  have hanswers : enqueueAnswers events = [] :=
    List.filterMap_eq_nil_iff.mpr fun event hevent => (h event hevent).2.2.2
  constructor <;> simp [houtcomes, hdeliveries, hpops, hsent, hanswers]

theorem Advances.append_silent (hfirst : Advances before events after)
    (hrest : ∀ event ∈ history, event.Silent) : Advances before (events ++ history) after :=
  hfirst.append (.of_silent hrest) fun event hevent =>
    (hrest event (List.mem_of_mem_head? hevent)).2.2.1

theorem Advances.exact (h : Advances {} history after) : Exact history after := by
  have htransfers := h.transfers rfl
  obtain ⟨hframes, hcomplete, hrejected, hmemory, hdispatched, -, hsent, hpopped, henqueued,
    hfailures⟩ := h
  simp only [UInt32.zero_add] at *
  refine ⟨hframes, hcomplete, hrejected, hmemory, hdispatched, htransfers, ?_, hsent, hpopped,
    henqueued, hfailures⟩
  rw [hframes, hcomplete, hrejected, hmemory, AcceptOutcome.length_eq, UInt32.ofNat_add,
    UInt32.ofNat_add, UInt32.ofNat_add]

end Advances

section Steps

variable [Engine σ] {node next last : Node σ κ ρ α} {events history : List (Event ρ)}

attribute [local simp] AcceptOutcome.isComplete Event.outcome? Event.isDelivery Event.isAcceptance
  Event.isPop Event.enqueued? Event.Silent outcomes enqueueAnswers sentCount List.filterMap_cons
  List.countP_cons

private theorem silent_of_freed (blocks : List Block) :
    ∀ event ∈ blocks.map (Event.freed (ρ := ρ)), event.Silent := by
  simp

theorem Processes.advances [Receiver ρ (Shared α)] {frame : ReceivedFrame}
    (h : node.Processes frame events next) : Advances node.stats events next.stats := by
  cases h with
  | rejected | fragment | outOfMemory =>
      constructor <;> simp
  | unhandled =>
      refine Advances.append_silent (?_ : Advances _ [_] _) (silent_of_freed _)
      constructor <;> simp
      case transfers => exact fun h => by rw [h, UInt32.add_assoc]
  | delivered =>
      refine Advances.append_silent (?_ : Advances _ [_, _] _) (silent_of_freed _)
      constructor <;> simp
      case transfers =>
        exact fun h => by rw [h, UInt32.add_assoc, UInt32.add_assoc, UInt32.add_comm 1]

theorem Looks.advances [Clock κ] [Transmitter τ] {transmitter final : τ} {again : Bool}
    (h : node.Looks transmitter events again next final) :
    Advances node.stats events next.stats := by
  cases h with
  | empty | refused | expiredKept | sentKept =>
      exact .of_silent (by simp)
  | expired | sent =>
      constructor <;> simp
      case popped => ac_rfl

theorem Handles.advances [Clock κ] {call : Call ρ τ} (h : node.Handles call events next) :
    Advances node.stats events next.stats := by
  cases h with
  | invalidPort | registryFull | sessionRefused | subscribed | unknown | unsubscribed | received
  | arrived | clockRead =>
      exact .of_silent (by simp)
  | enqueued | notEnqueued =>
      constructor <;> simp [Except.toOption]

theorem Step.advances [Clock κ] [Receiver ρ (Shared α)] [Transmitter τ]
    (h : node.Step τ events next) : Advances node.stats events next.stats := by
  cases h with
  | process _ hprocess => exact hprocess.advances
  | look hlook => exact hlook.advances
  | handle hhandle => exact hhandle.advances

/-- No step begins with a pop, so steps do not tear what was sent from its pop. -/
theorem Step.head_pop [Clock κ] [Receiver ρ (Shared α)] [Transmitter τ]
    (h : node.Step τ events next) : ∀ event ∈ events.head?, event.isPop = false := by
  cases h with
  | process _ hprocess => cases hprocess <;> simp
  | look hlook => cases hlook <;> simp
  | handle hhandle => cases hhandle <;> simp

theorem Steps.advances [Clock κ] [Receiver ρ (Shared α)] [Transmitter τ]
    (h : node.Steps τ history last) : Advances node.stats history last.stats := by
  refine h.invariant (P := fun past next => Advances node.stats past next.stats) ?_
    (.of_silent (by simp))
  intro past middle events next hpast hstep
  -- an acceptance at the end of `past` is not followed by a pop in `events`
  exact hpast.append hstep.advances hstep.head_pop

/-- The answer to a caller is in the history. -/
theorem enqueue_eq_ok_iff [Clock κ] {timeout : Micros} {metadata : Metadata} {payload : Bytes}
    {answer : Except EnqueueError Nat} :
    node.enqueue timeout metadata payload = .ok (answer, next) ↔
      ∃ events, node.Handles (τ := τ) (.enqueue timeout metadata payload) events next ∧
        enqueueAnswers events = [answer] := by
  constructor
  · intro h
    obtain ⟨⟨result, engine, heap⟩, hpush, heq⟩ := Fault.bind_eq_ok h
    cases result with
    | ok count =>
        cases heq
        exact ⟨_, .enqueued rfl hpush, rfl⟩
    | error error =>
        cases heq
        exact ⟨_, .notEnqueued rfl hpush, rfl⟩
  · rintro ⟨events, h, hanswer⟩
    cases h with
    | enqueued hclock hpush | notEnqueued hclock hpush =>
        cases hanswer
        simp [enqueue, now, hclock, hpush, bind, Except.bind, pure, Except.pure]

end Steps

/-- Whatever the engine answers, the counters show what the history holds of every run from a
start, complete or ended early by a fault.  An engine that records its calls has recorded those that
the history holds. -/
theorem stats_exact [Engine σ] [Clock κ] [Receiver ρ (Shared α)] [Transmitter τ] {engine : σ}
    {arena : Arena} {clock : κ} {shared : Shared α} {config : NodeConfig} {capacity : Nat}
    {node : Node σ κ ρ α} (hstart : start engine arena clock shared config capacity = .ok node)
    (calls : List (Call ρ τ)) :
    node.Adequate calls ∧
    (∀ (first last : Node (Traced σ) κ ρ α) history, first.Steps τ history last →
      last.engine.calls = first.engine.calls ++ history.filterMap Event.call?) ∧
    (∀ last history, node.Runs calls history last → node.Steps τ history last) ∧
    (∀ last history, node.Reaches calls history last → node.Steps τ history last) ∧
    ∀ last history, node.Steps τ history last →
      Exact history last.stats ∧
      (∀ timeout metadata payload answer next,
        last.enqueue timeout metadata payload = .ok (answer, next) ↔
          ∃ events, last.Handles (τ := τ) (.enqueue timeout metadata payload) events next ∧
            enqueueAnswers events = [answer]) ∧
      ∀ (transmitter final : τ) next,
        (∃ events, last.Drains transmitter events next final) ↔
          ∃ budget, last.drain transmitter budget = .ok (next, final) := by
  obtain ⟨heap, -, rfl⟩ := start_eq_ok hstart
  exact ⟨adequate _ calls, fun first last history hsteps => hsteps.calls_eq,
    fun last history hruns => hruns.steps, fun last history hreaches => hreaches.steps,
    fun last history hsteps => ⟨hsteps.advances.exact,
      fun timeout metadata payload answer next => enqueue_eq_ok_iff,
      fun transmitter final next => drains_iff_exists_drain⟩⟩

/-- Something of everything: a message for a receiver and one for nobody, the first frame of a
third and a frame without a tail byte; a transfer sent, one that expires and one that is too
long. -/
def sampleMixture : List (Call Recorder ScriptedTransmitter) :=
  let metadata := Metadata.message (.ofNat 100) default
  [.subscribe (.message (.ofNat 100)) { extent := 16 } ⟨1⟩,
    .arrive (.raw 0x10606407 [1, 2, 3, 0xE0] 5), .arrive (.raw 0x10606507 [1, 2, 3, 0xE0] 6),
    .arrive (.raw 0x10606407 [1, 2, 3, 4, 5, 6, 7, 0xA1] 7), .arrive (.raw 0x10606407 [] 8),
    .enqueue 1000 metadata [1, 2, 3], .enqueue 5 metadata [1, 2, 3],
    .enqueue 1000 metadata (List.replicate 80 0), .spin ⟨[true]⟩]

/-- The frames of the sample had four outcomes, and two transfers were queued. -/
theorem stats_exact_sample :
    ∃ node last history, ScriptedNode.start [0, 0, 0, 0, 10] = .ok node ∧
      node.Runs sampleMixture history last ∧ Exact history last.stats ∧
      last.stats = {
        framesReceived := 4, transfersReceived := 1, dispatched := 1, rejected := 2
        framesEnqueued := 2, enqueueFailures := 1, sent := 1, expired := 1 } := by
  obtain ⟨node, last, hstart, hrun, hlast⟩ := ScriptedNode.exists_run_of_rehearse
    (p := fun last => decide (last.stats = {
      framesReceived := 4, transfersReceived := 1, dispatched := 1, rejected := 2
      framesEnqueued := 2, enqueueFailures := 1, sent := 1, expired := 1 }))
    (show (ScriptedNode.rehearse [0, 0, 0, 0, 10] sampleMixture).any _ = true by decide +kernel)
  obtain ⟨hadequate, -, hsteps, -, hexact⟩ := stats_exact hstart sampleMixture
  obtain ⟨history, hhistory⟩ := hadequate.sound last hrun
  exact ⟨node, last, history, hstart, hhistory, (hexact last history (hsteps _ _ hhistory)).1,
    of_decide_eq_true hlast⟩

end Node

end CanNode
