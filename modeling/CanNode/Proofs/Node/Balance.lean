import CanNode.Proofs.Engine.Ownership
import CanNode.Proofs.Node.Computation
import CanNode.Proofs.Node.Script

/-!
# The heap of a node in balance

Blocks pass from the engine to the node, with completed transfers and with frames that leave the
queue, and the node gives them back.  `Node.heap_balanced` says that between calls the payloads of
the engine's queue are the live blocks of the heap, and that every block that passed to the node
was given back once.
-/

namespace CanNode

namespace Node

open Ledger

variable {σ κ ρ α τ : Type}

/-- The blocks that pass to the node. -/
def Event.handedOver : Event ρ → List Block
  | .engine (.accept _ outcome) _ => outcome.block?.toList
  | .engine (.pop answer) _ => (answer.map QueuedFrame.payload).toList
  | _ => []

/-- The blocks that the node gives back. -/
def Event.givenBack : Event ρ → List Block
  | .freed block => [block]
  | _ => []

def Event.LeavesHeap : Event ρ → Prop
  | .engine _ _ => False
  | .freed _ => False
  | _ => True

/-- A history is read as what becomes of a ledger: the engine uses the heap as it may, and the node
frees live blocks. -/
inductive Follows : Ledger → List (Event ρ) → Ledger → Prop where
  | nil {ledger} : Follows ledger [] ledger
  | engine {ledger call heap live history last} (hleads : Leads ledger ⟨heap, live⟩)
      (hrest : Follows ⟨heap, live⟩ history last) :
      Follows ledger (.engine call heap :: history) last
  | freed {ledger block heap history last} (hblock : block ∈ ledger.live)
      (hfree : ledger.heap.free block = .ok heap)
      (hrest : Follows ⟨heap, ledger.live.erase block⟩ history last) :
      Follows ledger (.freed block :: history) last
  | other {ledger event history last} (hother : event.LeavesHeap)
      (hrest : Follows ledger history last) : Follows ledger (event :: history) last

namespace Follows

variable {ledger middle last : Ledger} {events history : List (Event ρ)} {heap heap' : Heap}
  {live : List Block} {block : Block}

theorem append (hfirst : Follows ledger events middle) (hrest : Follows middle history last) :
    Follows ledger (events ++ history) last := by
  induction hfirst with
  | nil => exact hrest
  | engine hleads _ ih => exact .engine hleads (ih hrest)
  | freed hblock hfree _ ih => exact .freed hblock hfree (ih hrest)
  | other hother _ ih => exact .other hother (ih hrest)

/-- Whatever holds the blocks at first holds them in the end. -/
theorem holds {arena : Arena} (h : Follows ledger history last) (hholds : Holds arena ledger) :
    Holds arena last := by
  induction h with
  | nil => exact hholds
  | engine hleads _ ih => exact ih (hholds.leads hleads)
  | freed hblock hfree _ ih => exact ih (hholds.leads (.free hblock hfree))
  | other _ _ ih => exact ih hholds

theorem of_free (hfree : heap.free block = .ok heap') :
    Follows (ρ := ρ) ⟨heap, block :: live⟩ [.freed block] ⟨heap', live⟩ := by
  have hrest : Follows (ρ := ρ) ⟨heap', (block :: live).erase block⟩ [] ⟨heap', live⟩ := by
    rw [List.erase_cons_head]
    exact .nil
  exact .freed List.mem_cons_self hfree hrest

theorem of_release {transfer : Transfer}
    (hrelease : Delivery.release ⟨heap, transfer⟩ = .ok heap') :
    Follows (ρ := ρ) ⟨heap, transfer.payload.toList ++ live⟩ (transfer.payload.toList.map .freed)
      ⟨heap', live⟩ := by
  unfold Delivery.release at hrelease
  cases hpayload : transfer.payload with
  | none =>
      rw [hpayload] at hrelease
      cases hrelease
      exact .nil
  | some block =>
      rw [hpayload] at hrelease
      exact of_free hrelease

end Follows

/-- What an engine keeps: the payloads of its queue, in the heap of its node. -/
def holdings (queue : σ → List QueuedFrame) (node : Node σ κ ρ α) : Ledger :=
  ⟨node.heap, payloads (queue node.engine)⟩

theorem not_misuses_of_holds [Engine σ] {node : Node σ κ ρ α} {arena : Arena} {live : List Block}
    (hholds : Holds arena ⟨node.heap, live⟩)
    (hpeek : ∀ {head}, Engine.peek node.engine = some head → head.payload ∈ live)
    (hpop : ∀ {frame engine}, Engine.pop node.engine = (some frame, engine) → frame.payload ∈ live)
    (hcomplete : ∀ {frame transfer engine heap},
      Engine.accept frame node.engine node.heap = .ok (.complete transfer, engine, heap) →
        ∃ others, Holds arena ⟨heap, transfer.payload.toList ++ others⟩) {fault : Fault} :
    ¬ node.Misuses fault := by
  intro h
  cases h with
  | @release frame transfer engine heap haccept hrelease =>
      obtain ⟨others, hmiddle⟩ := hcomplete haccept
      unfold Delivery.release at hrelease
      cases hpayload : transfer.payload with
      | none =>
          rw [hpayload] at hrelease
          cases hrelease
      | some block =>
          rw [hpayload] at hrelease hmiddle
          have hblock : block ∈ (some block).toList ++ others := List.mem_cons_self
          obtain ⟨heap', hfree⟩ := hmiddle.exists_free hblock
          cases hfree.symm.trans hrelease
  | read hhead hread =>
      obtain ⟨data, hdata⟩ := hholds.exists_read (hpeek hhead)
      cases hdata.symm.trans hread
  | free hframe hfree =>
      obtain ⟨heap', hfreed⟩ := hholds.exists_free (hpop hframe)
      cases hfreed.symm.trans hfree

section Steps

variable [Engine σ] {queue : σ → List QueuedFrame} (hfrugal : Engine.Frugal queue)
  {node next last : Node σ κ ρ α} {events history : List (Event ρ)} {arena : Arena}

include hfrugal

theorem Processes.follows [Receiver ρ (Shared α)] {frame : ReceivedFrame}
    (h : node.Processes frame events next) (hholds : Holds arena (holdings queue node)) :
    Follows (holdings queue node) events (holdings queue next) := by
  cases h with
  | rejected haccept | fragment haccept | outOfMemory haccept =>
      exact .engine (hfrugal.accept hholds haccept) .nil
  | unhandled haccept _ hrelease =>
      exact .engine (hfrugal.accept hholds haccept) (.of_release hrelease)
  | delivered haccept _ _ hrelease =>
      exact .engine (hfrugal.accept hholds haccept) (.other trivial (.of_release hrelease))

/-- The payload of the head is live until the head has left the queue. -/
private theorem follows_pop {engine : σ} {frame : QueuedFrame} {heap heap' : Heap}
    (hpop : Engine.pop engine = (some frame, next.engine))
    (hfree : heap.free frame.payload = .ok heap') :
    Follows (ρ := ρ) ⟨heap, payloads (queue engine)⟩
      [.engine (.pop (some frame)) heap, .freed frame.payload]
      ⟨heap', payloads (queue next.engine)⟩ := by
  rw [hfrugal.queue_eq_cons hpop]
  exact .engine .refl (.of_free hfree)

theorem Looks.follows [Clock κ] [Transmitter τ] {transmitter final : τ} {again : Bool}
    (h : node.Looks transmitter events again next final) :
    Follows (holdings queue node) events (holdings queue next) := by
  cases h with
  | empty => exact .other trivial .nil
  | refused => exact .other trivial (.other trivial .nil)
  | expired _ _ _ hpop hfree => exact .other trivial (follows_pop hfrugal hpop hfree)
  | sent _ _ _ _ _ hpop hfree =>
      exact .other trivial (.other trivial (follows_pop hfrugal hpop hfree))
  | expiredKept _ hpeek _ hpop | sentKept _ hpeek _ _ _ hpop =>
      exact absurd hpop (hfrugal.pop_ne_none hpeek)

theorem Handles.follows [Clock κ] {call : Call ρ τ} (h : node.Handles call events next)
    (hholds : Holds arena (holdings queue node)) :
    Follows (holdings queue node) events (holdings queue next) := by
  cases h with
  | arrived => exact .nil
  | invalidPort | registryFull | unknown | received | clockRead => exact .other trivial .nil
  | sessionRefused _ _ hsession | subscribed _ hsession =>
      exact .engine (.of_perm (hfrugal.payloads_subscribe hsession).symm) (.other trivial .nil)
  | unsubscribed _ hsession =>
      exact .engine (hfrugal.unsubscribe hholds hsession) (.other trivial .nil)
  | enqueued _ hpush | notEnqueued _ hpush =>
      exact .other trivial (.engine (hfrugal.push hholds hpush) .nil)

theorem Step.follows [Clock κ] [Receiver ρ (Shared α)] [Transmitter τ]
    (h : node.Step τ events next) (hholds : Holds arena (holdings queue node)) :
    Follows (holdings queue node) events (holdings queue next) := by
  cases h with
  | @process frame waiting events next _ hprocess =>
      have hwaiting : Holds arena (holdings queue (node.withQueue waiting)) := hholds
      exact (hprocess.follows hfrugal hwaiting :)
  | look hlook => exact hlook.follows hfrugal
  | handle hhandle => exact hhandle.follows hfrugal hholds

theorem Steps.follows [Clock κ] [Receiver ρ (Shared α)] [Transmitter τ]
    (h : node.Steps τ history last)
    (hholds : Holds arena (holdings queue node)) :
    Follows (holdings queue node) history (holdings queue last) :=
  h.invariant (P := fun past next => Follows (holdings queue node) past (holdings queue next))
    (fun hpast hstep => hpast.append (hstep.follows hfrugal (hpast.holds hholds))) .nil

/-- The node frees nothing that it does not hold. -/
theorem not_misuses {fault : Fault} (hholds : Holds arena (holdings queue node)) :
    ¬ node.Misuses fault := by
  refine not_misuses_of_holds hholds (fun hpeek => ?_) (fun hpop => ?_)
    fun haccept => ⟨_, hholds.leads (hfrugal.accept hholds haccept)⟩
  · exact List.mem_map_of_mem (List.mem_of_mem_head? (hfrugal.peek _ ▸ hpeek))
  · rw [hfrugal.queue_eq_cons hpop]
    exact List.mem_cons_self

end Steps

section Blocks

variable [Engine σ] [Clock κ] [Receiver ρ (Shared α)] [Transmitter τ]
  {node next last : Node σ κ ρ α} {events history : List (Event ρ)}

/-- In every step, the blocks that pass to the node are given back. -/
theorem Step.givenBack_eq (h : node.Step τ events next) :
    events.flatMap Event.givenBack = events.flatMap Event.handedOver := by
  have hfreed (blocks : List Block) : (blocks.map (Event.freed (ρ := ρ))).flatMap
      Event.givenBack = blocks := by simp [List.flatMap_map, Event.givenBack]
  have hnone (blocks : List Block) : (blocks.map (Event.freed (ρ := ρ))).flatMap
      Event.handedOver = [] := by simp [List.flatMap_map, Event.handedOver]
  cases h with
  | process _ hprocess =>
      cases hprocess with
      | rejected | fragment | outOfMemory => rfl
      | unhandled | delivered =>
          simp [hfreed, hnone, Event.givenBack, Event.handedOver, AcceptOutcome.block?]
  | look hlook => cases hlook <;> rfl
  | handle hhandle => cases hhandle <;> rfl

theorem Steps.givenBack_eq (h : node.Steps τ history last) :
    history.flatMap Event.givenBack = history.flatMap Event.handedOver := by
  refine h.invariant (P := fun past _ =>
    past.flatMap Event.givenBack = past.flatMap Event.handedOver) ?_ rfl
  intro past middle events next hpast hstep
  rw [List.flatMap_append, List.flatMap_append, hpast, hstep.givenBack_eq]

end Blocks

/-- Tail-byte engines keep no block besides the payloads of their queue.  With any such engine the
live blocks of the node's heap are those payloads, each once, after every run, and the node frees
what passes to it, in this order and once.  A run ends early only for a fault of the engine or of
a receiver. -/
theorem heap_balanced :
    Engine.Frugal TailByteEngine.queue ∧
    ∀ {σ κ ρ α τ : Type} [Engine σ] [Clock κ] [Receiver ρ (Shared α)] [Transmitter τ]
      {queue : σ → List QueuedFrame} {engine : σ} {arena : Arena} {clock : κ} {shared : Shared α}
      {config : NodeConfig} {capacity : Nat} {node : Node σ κ ρ α},
      Engine.Frugal queue → queue engine = [] →
      start engine arena clock shared config capacity = .ok node →
      ∀ calls : List (Call ρ τ),
        (∀ last history, node.Runs calls history last →
          Follows ⟨node.heap, []⟩ history ⟨last.heap, payloads (queue last.engine)⟩ ∧
          Holds arena ⟨last.heap, payloads (queue last.engine)⟩ ∧
          (payloads (queue last.engine)).Nodup ∧
          last.heap.usage.live = (queue last.engine).length ∧
          history.flatMap Event.givenBack = history.flatMap Event.handedOver) ∧
        (∀ last, node.run calls = .ok last ↔ ∃ history, node.Runs calls history last) ∧
        ∀ fault, node.run calls = .error fault →
          ∃ history last, node.Steps τ history last ∧ last.Raises fault := by
  refine ⟨TailByteEngine.frugal, ?_⟩
  intro σ κ ρ α τ _ _ _ _ queue engine arena clock shared config capacity node hfrugal hempty
    hstart calls
  obtain ⟨heap, hformat, rfl⟩ := start_eq_ok hstart
  have hnone : payloads (queue (Engine.configure config engine)) = [] := by
    have hperm := hfrugal.configure config engine
    rw [hempty] at hperm
    exact hperm.eq_nil
  have hholds : Holds arena ⟨heap, payloads (queue (Engine.configure config engine))⟩ := by
    rw [hnone]
    exact .of_format hformat
  refine ⟨fun last history hruns => ?_, fun last => run_eq_ok_iff hfrugal.toQueues,
    fun fault hfault => ?_⟩
  · have hfollows := hruns.steps.follows hfrugal hholds
    have hlast := hfollows.holds hholds
    unfold holdings at hfollows
    rw [hnone] at hfollows
    have hlive := hlast.usage_live
    rw [holdings, payloads, List.length_map] at hlive
    exact ⟨hfollows, hlast, hlast.nodup, hlive, hruns.steps.givenBack_eq⟩
  · obtain ⟨history, last, hsteps, hraises | hmisuses⟩ :=
      exists_stuck_of_run hfrugal.toQueues hfault
    · exact ⟨history, last, hsteps, hraises⟩
    · exact absurd hmisuses (not_misuses hfrugal ((hsteps.follows hfrugal hholds).holds hholds))

def sampleExchange : List (Call Recorder ScriptedTransmitter) :=
  [.subscribe (.message (.ofNat 100)) { extent := 16 } ⟨1⟩,
    .arrive (.raw 0x10606407 [1, 2, 3, 0xE0] 5),
    .enqueue 1000 (.message (.ofNat 100) default)
      [1, 2, 3, 4, 5, 6, 7, 8, 9, 10, 11, 12, 13, 14, 15],
    .spin ⟨[true]⟩]

/-- Two of three frames wait, so two blocks are live. -/
theorem heap_balanced_sample :
    Engine.Frugal TailByteEngine.queue ∧ ({} : TailByteEngine).queue = [] ∧
      ∃ node last history, ScriptedNode.start [0, 0] = .ok node ∧
        node.Runs sampleExchange history last ∧
        Holds (Arena.filled 256 0xAA) ⟨last.heap, payloads last.engine.queue⟩ ∧
        last.heap.usage.live = 2 ∧ last.stats.dispatched = 1 ∧
        history.flatMap Event.givenBack = history.flatMap Event.handedOver := by
  obtain ⟨node, last, hstart, hrun, hlast⟩ := ScriptedNode.exists_run_of_rehearse
    (p := fun last => decide (last.engine.queue.length = 2 ∧ last.stats.dispatched = 1))
    (show (ScriptedNode.rehearse [0, 0] sampleExchange).any _ = true by decide +kernel)
  obtain ⟨hlength, hdispatched⟩ := of_decide_eq_true hlast
  obtain ⟨hfrugal, hbalanced⟩ := heap_balanced
  obtain ⟨hruns, hrun_iff, -⟩ := hbalanced hfrugal rfl hstart sampleExchange
  obtain ⟨history, hhistory⟩ := (hrun_iff last).mp hrun
  obtain ⟨-, hholds, -, hlive, hgiven⟩ := hruns last history hhistory
  exact ⟨hfrugal, rfl, node, last, history, hstart, hhistory, hholds, hlive.trans hlength,
    hdispatched, hgiven⟩

end Node

end CanNode
