import CanNode.Proofs.Heap.Payload
import CanNode.Proofs.Node.Computation
import CanNode.Proofs.Node.Script

/-!
# Transfers reach their current receiver

`Node.current` looks a history through, latest event first, for the receiver of a topic.
`Node.dispatch_proper` says that at every point of every run a completed transfer goes to the
receiver that is current at that point, to it once and to nobody else, and that a subscription is
answered by the receiver that was current before.
-/

namespace CanNode

namespace Node

variable {σ κ ρ α τ : Type}

/-- What an event means for a topic: it has a receiver from now on, or none, or it keeps what it
has. -/
def Event.subscription? (topic : Topic) : Event ρ → Option (Option ρ)
  | .subscribed other receiver (.ok _) => if other = topic then some (some receiver) else none
  | .unsubscribed other _ => if other = topic then some none else none
  | _ => none

/-- The receiver of the last successful subscription of a topic, if it was not removed since. -/
def current (history : List (Event ρ)) (topic : Topic) : Option ρ :=
  (latest (Event.subscription? topic) history).join

section Current

variable {past events history : List (Event ρ)} {topic : Topic} {receiver : ρ}

theorem current_concat (past : List (Event ρ)) (event : Event ρ) (topic : Topic) :
    current (past ++ [event]) topic = (event.subscription? topic).getD (current past topic) := by
  unfold current
  rw [latest_concat]
  cases event.subscription? topic <;> rfl

theorem current_append_of_silent (hsilent : ∀ event ∈ events, event.subscription? topic = none) :
    current (past ++ events) topic = current past topic :=
  congrArg Option.join (latest_append_of_silent hsilent)

theorem current_eq_some_iff : current history topic = some receiver ↔
    ∃ before replaced after,
      history = before ++ .subscribed topic receiver (.ok replaced) :: after ∧
        ∀ event ∈ after, event.subscription? topic = none := by
  unfold current
  rw [Option.join_eq_some_iff, latest_eq_some_iff]
  constructor
  · rintro ⟨before, event, after, hhistory, hevent, hsilent⟩
    cases event with
    | subscribed other held answer =>
        cases answer with
        | error error => cases hevent
        | ok replaced =>
            by_cases hother : other = topic
            · subst hother
              obtain rfl : held = receiver := by simpa [Event.subscription?] using hevent
              exact ⟨before, replaced, after, hhistory, hsilent⟩
            · simp [Event.subscription?, hother] at hevent
    | unsubscribed other removed =>
        by_cases hother : other = topic <;> simp [Event.subscription?, hother] at hevent
    | clock | engine | delivered | offered | freed => cases hevent
  · rintro ⟨before, replaced, after, hhistory, hsilent⟩
    exact ⟨before, _, after, hhistory, by simp [Event.subscription?], hsilent⟩

end Current

/-! ## What a receiver is shown -/

/-- The receiver that an event calls, with what it is shown. -/
def Event.delivery? : Event ρ → Option (ρ × Delivery)
  | .delivered receiver delivery => some (receiver, delivery)
  | _ => none

/-- A delivery shows what the engine made of a transfer. -/
structure Shows (delivery : Delivery) (transfer : Transfer) (heap : Heap) : Prop where
  metadata : delivery.metadata = transfer.metadata
  timestamp : delivery.timestamp = transfer.timestamp
  empty : transfer.payload = none → delivery.payload = .ok []
  data : ∀ block, transfer.payload = some block → delivery.payload = heap.read block
  /-- What the engine wrote into the block last is what the receiver reads. -/
  written : ∀ (block : Block) (values : Bytes) (earlier : Heap), transfer.payload = some block →
    values.length = block.len → earlier.write block 0 values = .ok heap →
      delivery.payload = .ok values

theorem shows_mk (heap : Heap) (transfer : Transfer) : Shows ⟨heap, transfer⟩ transfer heap where
  metadata := rfl
  timestamp := rfl
  empty hnone := by simp [Delivery.payload, hnone]
  data block hblock := by simp [Delivery.payload, hblock]
  written block values earlier hblock hlength hwrite := by
    simp [Delivery.payload, hblock, Heap.read_of_write hlength hwrite]

/-! ## Events in their place -/

/-- An event is as it should be, between the events before it and the one that comes next. -/
def Event.Proper (before : List (Event ρ)) (next : Option (Event ρ)) : Event ρ → Prop
  -- a completed transfer goes to the current receiver and to nobody else
  | .engine (.accept _ (.complete transfer)) heap =>
      match current before transfer.topic with
      | none => next.bind Event.delivery? = none
      | some receiver => ∃ delivery, next = some (.delivered receiver delivery) ∧
          Shows delivery transfer heap
  -- a receiver is called only for a transfer that has just been completed
  | .delivered _ _ => ∃ frame transfer heap,
      before.getLast? = some (.engine (.accept frame (.complete transfer)) heap)
  | .subscribed topic _ (.ok replaced) => replaced = current before topic
  | _ => True

def Proceeds (past history : List (Event ρ)) : Prop :=
  ∀ before event after, history = before ++ event :: after →
    event.Proper (past ++ before) after.head?

section Proceeds

variable {past events history : List (Event ρ)} {event : Event ρ} {next : Option (Event ρ)}

theorem proceeds_of_forall (h : ∀ event ∈ events, ∀ before next, event.Proper before next) :
    Proceeds past events := by
  intro before event after hevents
  exact h event (by simp [hevents]) _ _

theorem proceeds_cons : Proceeds past (event :: history) ↔
    event.Proper past history.head? ∧ Proceeds (past ++ [event]) history := by
  constructor
  · intro h
    constructor
    · simpa using h [] event history rfl
    · intro before other after hhistory
      have hproper := h (event :: before) other after (by rw [hhistory, List.cons_append])
      rwa [List.append_cons] at hproper
  · rintro ⟨hevent, hrest⟩ before other after hhistory
    cases before with
    | nil =>
        cases hhistory
        simpa using hevent
    | cons first before =>
        cases hhistory
        rw [List.append_cons]
        exact hrest before other after rfl

/-- What comes later does not matter for an event, unless it is a delivery. -/
theorem Event.Proper.of_none (h : event.Proper past none)
    (hnext : next.bind Event.delivery? = none) : event.Proper past next := by
  unfold Event.Proper at h ⊢
  split
  · next frame transfer heap =>
      cases hcurrent : current past transfer.topic with
      | none => exact hnext
      | some receiver =>
          simp only [hcurrent] at h
          obtain ⟨delivery, hdelivery, -⟩ := h
          cases hdelivery
  · exact h
  · exact h
  · trivial

theorem Proceeds.append (hfirst : Proceeds past events) (hrest : Proceeds (past ++ events) history)
    (hhead : history.head?.bind Event.delivery? = none) : Proceeds past (events ++ history) := by
  induction events generalizing past with
  | nil => simpa using hrest
  | cons event rest ih =>
      obtain ⟨hevent, hfirst⟩ := proceeds_cons.mp hfirst
      rw [List.append_cons] at hrest
      refine proceeds_cons.mpr ⟨?_, ih hfirst hrest⟩
      cases rest with
      | nil => exact hevent.of_none hhead
      | cons second rest => exact hevent

end Proceeds

/-! ## Steps and runs -/

section Steps

variable {node next last : Node σ κ ρ α} {past events history : List (Event ρ)}

def Registered (history : List (Event ρ)) (node : Node σ κ ρ α) : Prop :=
  ∀ topic, node.registry.find? topic = current history topic

theorem Registered.of_silent (h : node.Registered past) (hregistry : next.registry = node.registry)
    (hsilent : ∀ topic, ∀ event ∈ events, event.subscription? topic = none) :
    next.Registered (past ++ events) := by
  intro topic
  rw [hregistry, h topic, current_append_of_silent (hsilent topic)]

variable [Engine σ]

private theorem proper_freed (blocks : List Block) :
    ∀ event ∈ blocks.map (Event.freed (ρ := ρ)), ∀ before next, event.Proper before next := by
  simp [Event.Proper]

theorem Processes.proceeds [Receiver ρ (Shared α)] {frame : ReceivedFrame}
    (h : node.Processes frame events next) (hregistered : node.Registered past) :
    Proceeds past events := by
  cases h with
  | rejected | fragment | outOfMemory => exact proceeds_of_forall (by simp [Event.Proper])
  | @unhandled transfer engine heap released haccept hfind hrelease =>
      refine proceeds_cons.mpr ⟨?_, proceeds_of_forall (proper_freed _)⟩
      rw [hregistered] at hfind
      simp only [Event.Proper, hfind]
      cases transfer.payload <;> rfl
  | @delivered transfer engine heap receiver shared released haccept hfind hreceiver hrelease =>
      rw [hregistered] at hfind
      refine proceeds_cons.mpr ⟨?_, proceeds_cons.mpr ⟨?_, proceeds_of_forall (proper_freed _)⟩⟩
      · simp only [Event.Proper, hfind]
        exact ⟨_, rfl, shows_mk heap transfer⟩
      · exact ⟨frame, transfer, heap, List.getLast?_concat⟩

theorem Handles.proceeds [Clock κ] {call : Call ρ τ} (h : node.Handles call events next)
    (hregistered : node.Registered past) : Proceeds past events := by
  cases h with
  | @subscribed topic params receiver engine registry hvalid hsession hinsert =>
      refine proceeds_cons.mpr ⟨trivial, proceeds_cons.mpr ⟨?_, proceeds_of_forall (by simp)⟩⟩
      have hsilent : current (past ++ [.engine (.subscribe topic params (.ok ())) node.heap])
          topic = current past topic := current_append_of_silent (by simp [Event.subscription?])
      exact (hregistered topic).trans hsilent.symm
  | _ => exact proceeds_of_forall (by simp [Event.Proper])

theorem Step.proceeds [Clock κ] [Receiver ρ (Shared α)] [Transmitter τ]
    (h : node.Step τ events next) (hregistered : node.Registered past) : Proceeds past events := by
  cases h with
  | process _ hprocess => exact hprocess.proceeds hregistered
  | look hlook => cases hlook <;> exact proceeds_of_forall (by simp [Event.Proper])
  | handle hhandle => exact hhandle.proceeds hregistered

theorem Handles.registered [Clock κ] {call : Call ρ τ} (h : node.Handles call events next)
    (hregistered : node.Registered past) : next.Registered (past ++ events) := by
  cases h with
  | @subscribed topic params receiver engine registry hvalid hsession hinsert =>
      intro other
      rw [List.append_cons, current_concat,
        current_append_of_silent (by simp [Event.subscription?]),
        ← hregistered other, Registry.find?_insert hinsert other]
      by_cases hother : other = topic
      · simp [Event.subscription?, hother]
      · simp [Event.subscription?, hother, Ne.symm hother]
  | @unknown topic hunknown =>
      intro other
      rw [current_concat, ← hregistered other]
      by_cases hother : topic = other
      · subst hother
        simpa [Event.subscription?, Registry.contains] using hunknown
      · simp [Event.subscription?, hother]
  | @unsubscribed topic closed engine heap hknown hsession =>
      intro other
      rw [List.append_cons, current_concat,
        current_append_of_silent (by simp [Event.subscription?]),
        ← hregistered other, Registry.find?_erase]
      by_cases hother : other = topic
      · simp [Event.subscription?, hother]
      · simp [Event.subscription?, hother, Ne.symm hother]
  | _ => exact hregistered.of_silent rfl (by simp [Event.subscription?])

theorem Step.registered [Clock κ] [Receiver ρ (Shared α)] [Transmitter τ]
    (h : node.Step τ events next) (hregistered : node.Registered past) :
    next.Registered (past ++ events) := by
  cases h with
  | process _ hprocess =>
      cases hprocess <;> exact hregistered.of_silent rfl (by simp [Event.subscription?])
  | look hlook =>
      cases hlook <;> exact hregistered.of_silent rfl (by simp [Event.subscription?])
  | handle hhandle => exact hhandle.registered hregistered

/-- No step begins with a delivery. -/
theorem Step.head_delivery [Clock κ] [Receiver ρ (Shared α)] [Transmitter τ]
    (h : node.Step τ events next) : events.head?.bind Event.delivery? = none := by
  cases h with
  | process _ hprocess => cases hprocess <;> rfl
  | look hlook => cases hlook <;> rfl
  | handle hhandle => cases hhandle <;> rfl

theorem Steps.proceeds [Clock κ] [Receiver ρ (Shared α)] [Transmitter τ]
    (h : node.Steps τ history last) (hregistered : node.Registered []) :
    Proceeds [] history ∧ last.Registered history := by
  refine h.invariant (P := fun past next => Proceeds [] past ∧ next.Registered past) ?_
    ⟨proceeds_of_forall (by simp), hregistered⟩
  intro past middle events next ⟨hpast, hmiddle⟩ hstep
  exact ⟨hpast.append (hstep.proceeds hmiddle) hstep.head_delivery, hstep.registered hmiddle⟩

/-- A successful subscription answers with the receiver that was registered before. -/
theorem eq_find?_of_subscribe {topic : Topic} {params : SessionParams} {receiver : ρ}
    {replaced : Option ρ} (h : node.subscribe topic params receiver = (.ok replaced, next)) :
    replaced = node.registry.find? topic := by
  rcases hregister : node.registry.subscribe node.engine topic params receiver with
    ⟨answer, registry, engine⟩
  simp only [subscribe, hregister] at h
  cases h
  unfold Registry.subscribe at hregister
  split at hregister
  · cases hregister
  split at hregister
  · cases hregister
  split at hregister
  · cases hregister
  split at hregister
  · cases hregister
  · cases hregister
    rfl

end Steps

/-- In the history of every run, complete or ended early by a fault, a completed transfer goes to
the receiver of the last successful subscription of its topic, unless that was removed, and a
subscription is answered by that receiver. -/
theorem dispatch_proper [Engine σ] [Clock κ] [Receiver ρ (Shared α)] [Transmitter τ] {engine : σ}
    {arena : Arena} {clock : κ} {shared : Shared α} {config : NodeConfig} {capacity : Nat}
    {node : Node σ κ ρ α} (hstart : start engine arena clock shared config capacity = .ok node)
    (calls : List (Call ρ τ)) :
    node.Adequate calls ∧
    (∀ last history, node.Runs calls history last → node.Steps τ history last) ∧
    (∀ last history, node.Reaches calls history last → node.Steps τ history last) ∧
    ∀ last history, node.Steps τ history last →
      (∀ before event after, history = before ++ event :: after →
        event.Proper before after.head?) ∧
      (∀ topic, last.registry.find? topic = current history topic) ∧
      (∀ topic receiver, last.registry.find? topic = some receiver ↔
        ∃ before replaced after,
          history = before ++ .subscribed topic receiver (.ok replaced) :: after ∧
            ∀ event ∈ after, event.subscription? topic = none) ∧
      ∀ topic params receiver replaced next,
        last.subscribe topic params receiver = (.ok replaced, next) →
          replaced = current history topic := by
  obtain ⟨heap, -, rfl⟩ := start_eq_ok hstart
  have hregistered : Registered [] (⟨heap, Engine.configure config engine, clock, shared,
      Registry.empty capacity, config, {}⟩ : Node σ κ ρ α) := fun topic => rfl
  refine ⟨adequate _ calls, fun last history hruns => hruns.steps,
    fun last history hreaches => hreaches.steps, fun last history hsteps => ?_⟩
  obtain ⟨hproceeds, hlast⟩ := hsteps.proceeds hregistered
  refine ⟨hproceeds, hlast, fun topic receiver => ?_,
    fun topic params receiver replaced next hsubscribe => ?_⟩
  · rw [hlast topic]
    exact current_eq_some_iff
  · rw [← hlast topic]
    exact eq_find?_of_subscribe hsubscribe

def sampleSubscriptions : List (Call Recorder ScriptedTransmitter) :=
  [.subscribe (.message (.ofNat 100)) { extent := 16 } ⟨1⟩,
    .subscribe (.request (.ofNat 100)) { extent := 16 } ⟨2⟩,
    .subscribe (.message (.ofNat 100)) { extent := 2 } ⟨3⟩,
    .arrive (.raw 0x10606407 [1, 2, 3, 0xE0] 5), .spin ⟨[]⟩]

/-- The third receiver gets the message, and nobody else does. -/
theorem dispatch_proper_sample :
    ∃ node last history, ScriptedNode.start [] = .ok node ∧
      node.Runs sampleSubscriptions history last ∧
      (∀ before event after, history = before ++ event :: after →
        event.Proper before after.head?) ∧
      last.shared.app = [(3, [1, 2])] := by
  obtain ⟨node, last, hstart, hrun, hlast⟩ := ScriptedNode.exists_run_of_rehearse
    (p := fun last => decide (last.shared.app = [(3, [1, 2])]))
    (show (ScriptedNode.rehearse [] sampleSubscriptions).any _ = true by decide +kernel)
  obtain ⟨hadequate, hsteps, -, hproper⟩ := dispatch_proper hstart sampleSubscriptions
  obtain ⟨history, hhistory⟩ := hadequate.sound last hrun
  exact ⟨node, last, history, hstart, hhistory, (hproper last history (hsteps _ _ hhistory)).1,
    of_decide_eq_true hlast⟩

end Node

end CanNode
