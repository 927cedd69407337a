import CanNode.Proofs.Node.Computation
import CanNode.Proofs.Node.Script
import Mathlib.Data.Nat.ModEq

/-!
# No frame is lost on its way out

`Node.Flows` reads a history as the life of the engine's queue: frames are pushed into it, and
each leaves it at the head, when the transmitter has just accepted it or its deadline has passed.
`Node.transmit_accounts` says that every run can be read so, that the frames pushed are those that
wait, were sent or expired, and that the counters agree with it.
-/

namespace CanNode

namespace Node

variable {σ κ ρ α τ : Type}

def Event.accepted? : Event ρ → Option (Identifier × Micros)
  | .offered frame true => some (frame.id, frame.deadline)
  | _ => none

/-- The event has nothing to do with the queue. -/
def Event.Quiet : Event ρ → Prop
  | .engine (.push _ _ _ (.ok _)) _ => False
  | .engine (.pop (some _)) _ => False
  | .offered _ true => False
  | _ => True

/-- A history takes a queue to another: some frames are inserted, some sent and some expire. -/
inductive Flows : List QueuedFrame → List (Event ρ) →
    List QueuedFrame → List QueuedFrame → List QueuedFrame → List QueuedFrame → Prop where
  | nil {queue} : Flows queue [] [] [] [] queue
  | quiet {queue event history inserted sent expired last} (hquiet : event.Quiet)
      (hrest : Flows queue history inserted sent expired last) :
      Flows queue (event :: history) inserted sent expired last
  | pushed {queue deadline metadata payload heap frames middle history inserted sent expired last}
      (hframes : middle.Perm (queue ++ frames))
      (hrest : Flows middle history inserted sent expired last) :
      Flows queue (.engine (.push deadline metadata payload (.ok frames.length)) heap :: history)
        (frames ++ inserted) sent expired last
  | sent {frame queue data heap history inserted sent expired last}
      (hdata : heap.read frame.payload = .ok data)
      (hrest : Flows queue history inserted sent expired last) :
      Flows (frame :: queue)
        (.offered ⟨frame.id, data, frame.deadline⟩ true :: .engine (.pop (some frame)) heap ::
          history)
        inserted (frame :: sent) expired last
  | expired {frame queue time heap history inserted sent expired last}
      (hlate : frame.deadline < time)
      (hrest : Flows queue history inserted sent expired last) :
      Flows (frame :: queue) (.clock time :: .engine (.pop (some frame)) heap :: history)
        inserted sent (frame :: expired) last

structure Counts (before after : NodeStats) (inserted sent expired : Nat) : Prop where
  enqueued : after.framesEnqueued = before.framesEnqueued + UInt32.ofNat inserted
  sent : after.sent = before.sent + UInt32.ofNat sent
  expired : after.expired = before.expired + UInt32.ofNat expired

namespace Flows

variable {queue middle last inserted sent expired inserted' sent' expired' : List QueuedFrame}
  {events history : List (Event ρ)}

theorem of_quiet (h : ∀ event ∈ events, event.Quiet) : Flows queue events [] [] [] queue := by
  induction events with
  | nil => exact .nil
  | cons event rest ih =>
      obtain ⟨hquiet, hrest⟩ := List.forall_mem_cons.mp h
      exact .quiet hquiet (ih hrest)

theorem append (hfirst : Flows queue events inserted sent expired middle)
    (hrest : Flows middle history inserted' sent' expired' last) :
    Flows queue (events ++ history) (inserted ++ inserted') (sent ++ sent')
      (expired ++ expired') last := by
  induction hfirst with
  | nil => exact hrest
  | quiet hquiet _ ih => exact .quiet hquiet (ih hrest)
  | pushed hframes _ ih =>
      rw [List.append_assoc]
      exact .pushed hframes (ih hrest)
  | sent hdata _ ih => exact .sent hdata (ih hrest)
  | expired hlate _ ih => exact .expired hlate (ih hrest)

/-- Every frame that was in the queue or came into it waits, was sent or expired. -/
theorem conserved (h : Flows queue history inserted sent expired last) :
    (queue ++ inserted).Perm (last ++ sent ++ expired) := by
  induction h with
  | nil => simp
  | quiet _ _ ih => exact ih
  | @pushed queue deadline metadata payload heap frames middle history inserted sent expired last
      hframes _ ih =>
      rw [← List.append_assoc]
      exact (hframes.symm.append_right inserted).trans ih
  | @sent frame queue data heap history inserted sent expired last hdata _ ih =>
      have hmiddle : (last ++ frame :: sent ++ expired).Perm (frame :: (last ++ sent ++ expired)) :=
        List.perm_middle.append_right expired
      exact (ih.cons frame).trans hmiddle.symm
  | expired _ _ ih => exact (ih.cons _).trans List.perm_middle.symm

/-- The transmitter accepts the frames that are sent, in this order, and no others. -/
theorem accepted_eq (h : Flows queue history inserted sent expired last) :
    history.filterMap Event.accepted? = sent.map fun frame => (frame.id, frame.deadline) := by
  induction h with
  | nil => rfl
  | @quiet queue event history inserted sent expired last hquiet _ ih =>
      have hnone : event.accepted? = none := by
        cases event with
        | offered frame accepted =>
            cases accepted with
            | true => exact hquiet.elim
            | false => rfl
        | _ => rfl
      rw [List.filterMap_cons_none hnone, ih]
  | pushed _ _ ih => exact ih
  | sent _ _ ih => exact congrArg (List.cons _) ih
  | expired _ _ ih => exact ih

end Flows

namespace Counts

variable {first middle last : NodeStats} {inserted sent expired inserted' sent' expired' : Nat}

theorem refl (stats : NodeStats) : Counts stats stats 0 0 0 :=
  ⟨by simp, by simp, by simp⟩

theorem trans (hfirst : Counts first middle inserted sent expired)
    (hrest : Counts middle last inserted' sent' expired') :
    Counts first last (inserted + inserted') (sent + sent') (expired + expired') := by
  constructor
  · rw [hrest.enqueued, hfirst.enqueued, UInt32.ofNat_add, UInt32.add_assoc]
  · rw [hrest.sent, hfirst.sent, UInt32.ofNat_add, UInt32.add_assoc]
  · rw [hrest.expired, hfirst.expired, UInt32.ofNat_add, UInt32.add_assoc]

theorem modEq (h : Counts {} last inserted sent expired) :
    last.framesEnqueued.toNat ≡ inserted [MOD 2 ^ 32] ∧ last.sent.toNat ≡ sent [MOD 2 ^ 32] ∧
      last.expired.toNat ≡ expired [MOD 2 ^ 32] := by
  rw [h.enqueued, h.sent, h.expired]
  simp [Nat.ModEq]

end Counts

/-- A history is read as the life of the queue, and the counters advance by what happens in it. -/
def Accounts (before : List QueuedFrame) (stats : NodeStats) (history : List (Event ρ))
    (after : List QueuedFrame) (stats' : NodeStats) : Prop :=
  ∃ inserted sent expired, Flows before history inserted sent expired after ∧
    Counts stats stats' inserted.length sent.length expired.length

theorem Accounts.refl {frames : List QueuedFrame} {stats : NodeStats} :
    Accounts (ρ := ρ) frames stats [] frames stats :=
  ⟨[], [], [], .nil, .refl stats⟩

theorem Accounts.append {before middle after : List QueuedFrame}
    {stats stats' stats'' : NodeStats} {events history : List (Event ρ)}
    (hfirst : Accounts before stats events middle stats')
    (hrest : Accounts middle stats' history after stats'') :
    Accounts before stats (events ++ history) after stats'' := by
  obtain ⟨inserted, sent, expired, hflows, hcounts⟩ := hfirst
  obtain ⟨inserted', sent', expired', hflows', hcounts'⟩ := hrest
  refine ⟨inserted ++ inserted', sent ++ sent', expired ++ expired', hflows.append hflows', ?_⟩
  rw [List.length_append, List.length_append, List.length_append]
  exact hcounts.trans hcounts'

section Runs

variable [Engine σ] {queue : σ → List QueuedFrame} {node next last : Node σ κ ρ α}
  {events history : List (Event ρ)}

private theorem accounts_of_quiet {frames : List QueuedFrame} {stats stats' : NodeStats}
    (hquiet : ∀ event ∈ events, event.Quiet)
    (hstats : stats'.framesEnqueued = stats.framesEnqueued ∧ stats'.sent = stats.sent ∧
      stats'.expired = stats.expired) :
    Accounts frames stats events frames stats' := by
  obtain ⟨henqueued, hsent, hexpired⟩ := hstats
  exact ⟨[], [], [], .of_quiet hquiet, by simp [henqueued], by simp [hsent], by simp [hexpired]⟩

variable (hconserves : Engine.Conserves queue)

include hconserves

theorem Processes.accounts [Receiver ρ (Shared α)] {frame : ReceivedFrame}
    (h : node.Processes frame events next) :
    Accounts (queue node.engine) node.stats events (queue next.engine) next.stats := by
  cases h with
  | rejected haccept | fragment haccept | outOfMemory haccept =>
      rw [hconserves.accept haccept]
      exact accounts_of_quiet (by simp [Event.Quiet]) ⟨rfl, rfl, rfl⟩
  | unhandled haccept | delivered haccept =>
      rw [hconserves.accept haccept]
      exact accounts_of_quiet (by simp [Event.Quiet]) ⟨rfl, rfl, rfl⟩

theorem Looks.accounts [Clock κ] [Transmitter τ] {transmitter final : τ} {again : Bool}
    (h : node.Looks transmitter events again next final) :
    Accounts (queue node.engine) node.stats events (queue next.engine) next.stats := by
  cases h with
  | empty | refused => exact accounts_of_quiet (by simp [Event.Quiet]) ⟨rfl, rfl, rfl⟩
  | expiredKept _ hpeek _ hpop | sentKept _ hpeek _ _ _ hpop =>
      exact absurd hpop (hconserves.pop_ne_none hpeek)
  | expired _ hpeek hlate hpop =>
      rw [hconserves.queue_eq_cons hpop]
      rw [← hconserves.eq_of_peek hpeek hpop] at hlate
      exact ⟨[], [], [_], .expired hlate (.of_quiet (by simp [Event.Quiet])), by simp, by simp,
        by simp⟩
  | sent _ hpeek _ hread _ hpop =>
      rw [hconserves.queue_eq_cons hpop]
      rw [← hconserves.eq_of_peek hpeek hpop] at hread ⊢
      exact ⟨[], [_], [], .quiet trivial (.sent hread (.of_quiet (by simp [Event.Quiet]))),
        by simp, by simp, by simp⟩

theorem Handles.accounts [Clock κ] {call : Call ρ τ} (h : node.Handles call events next) :
    Accounts (queue node.engine) node.stats events (queue next.engine) next.stats := by
  cases h with
  | invalidPort | registryFull | unknown | received | arrived | clockRead =>
      exact accounts_of_quiet (by simp [Event.Quiet]) ⟨rfl, rfl, rfl⟩
  | sessionRefused _ _ hsession | subscribed _ hsession =>
      rw [hconserves.queue_subscribe hsession]
      exact accounts_of_quiet (by simp [Event.Quiet]) ⟨rfl, rfl, rfl⟩
  | unsubscribed _ hsession =>
      rw [hconserves.unsubscribe hsession]
      exact accounts_of_quiet (by simp [Event.Quiet]) ⟨rfl, rfl, rfl⟩
  | notEnqueued _ hpush =>
      rw [hconserves.refuse hpush]
      exact accounts_of_quiet (by simp [Event.Quiet]) ⟨rfl, rfl, rfl⟩
  | enqueued _ hpush =>
      obtain ⟨frames, rfl, hframes⟩ := hconserves.push hpush
      exact ⟨frames ++ [], [], [], .quiet trivial (.pushed hframes .nil), by simp, by simp,
        by simp⟩

variable [Clock κ] [Receiver ρ (Shared α)] [Transmitter τ]

theorem Step.accounts (h : node.Step τ events next) :
    Accounts (queue node.engine) node.stats events (queue next.engine) next.stats := by
  cases h with
  | process _ hprocess => exact (hprocess.accounts hconserves :)
  | look hlook => exact hlook.accounts hconserves
  | handle hhandle => exact hhandle.accounts hconserves

theorem Steps.accounts (h : node.Steps τ history last) :
    Accounts (queue node.engine) node.stats history (queue last.engine) last.stats :=
  h.invariant (P := fun past next =>
    Accounts (queue node.engine) node.stats past (queue next.engine) next.stats)
    (fun hpast hstep => hpast.append (hstep.accounts hconserves)) .refl

end Runs

/-- Every frame that was ever pushed waits in the engine's queue, was accepted by the transmitter
once, or expired, whatever the clock shows and the transmitters answer.  Each next call goes on
from there. -/
theorem transmit_accounts [Engine σ] [Clock κ] [Receiver ρ (Shared α)] [Transmitter τ]
    {queue : σ → List QueuedFrame} (hconserves : Engine.Conserves queue) {engine : σ}
    {arena : Arena} {clock : κ} {shared : Shared α} {config : NodeConfig} {capacity : Nat}
    {node : Node σ κ ρ α} (hempty : queue engine = [])
    (hstart : start engine arena clock shared config capacity = .ok node)
    (calls : List (Call ρ τ)) :
    (∀ last history, node.Runs calls history last →
      (∃ inserted sent expired,
        Flows [] history inserted sent expired (queue last.engine) ∧
        inserted.Perm (queue last.engine ++ sent ++ expired) ∧
        history.filterMap Event.accepted? = sent.map (fun frame => (frame.id, frame.deadline)) ∧
        Counts {} last.stats inserted.length sent.length expired.length) ∧
      last.stats.framesEnqueued.toNat ≡
        last.stats.sent.toNat + last.stats.expired.toNat + (queue last.engine).length
          [MOD 2 ^ 32] ∧
      ∀ (call : Call ρ τ) events next, last.Performs call events next →
        Accounts (queue last.engine) last.stats events (queue next.engine) next.stats) ∧
    (∀ last, node.run calls = .ok last ↔ ∃ history, node.Runs calls history last) ∧
    ∀ fault, node.run calls = .error fault →
      ∃ history last, node.Steps τ history last ∧ last.Stuck fault := by
  have hqueues := hconserves.toQueues
  refine ⟨fun last history hruns => ?_, fun last => run_eq_ok_iff hqueues,
    fun fault => exists_stuck_of_run hqueues⟩
  obtain ⟨inserted, sent, expired, hflows, hcounts⟩ := hruns.steps.accounts hconserves
  obtain ⟨heap, -, rfl⟩ := start_eq_ok hstart
  simp only [hconserves.configure, hempty] at hflows hcounts
  have hperm : inserted.Perm (queue last.engine ++ sent ++ expired) := hflows.conserved
  obtain ⟨henqueued, hsent, hexpired⟩ := hcounts.modEq
  have hlength : inserted.length =
      sent.length + expired.length + (queue last.engine).length := by
    rw [hperm.length_eq, List.length_append, List.length_append]
    omega
  have hbalance := (hsent.add hexpired).add_right (queue last.engine).length
  rw [← hlength] at hbalance
  exact ⟨⟨inserted, sent, expired, hflows, hperm, hflows.accepted_eq, hcounts⟩,
    henqueued.trans hbalance.symm,
    fun call events next hperforms => hperforms.steps.accounts hconserves⟩

def sampleTransmission : List (Call Recorder ScriptedTransmitter) :=
  let metadata := Metadata.message (.ofNat 100) default
  [.enqueue 1000 metadata [1, 2, 3], .enqueue 5 metadata [1, 2, 3, 4, 5, 6, 7, 8],
    .spin ⟨[true]⟩, .spin ⟨[]⟩]

/-- Of three frames one is sent, one expires and one waits. -/
theorem transmit_accounts_sample :
    Engine.Conserves TailByteEngine.queue ∧ ({} : TailByteEngine).queue = [] ∧
      ∃ node last history inserted sent expired, ScriptedNode.start [0, 0, 0, 0, 10] = .ok node ∧
        node.Runs sampleTransmission history last ∧
        Flows [] history inserted sent expired last.engine.queue ∧
        inserted.Perm (last.engine.queue ++ sent ++ expired) ∧
        last.engine.queue.length = 1 ∧ last.stats.sent = 1 ∧ last.stats.expired = 1 := by
  obtain ⟨node, last, hstart, hrun, hlast⟩ := ScriptedNode.exists_run_of_rehearse
    (p := fun last => decide (last.engine.queue.length = 1 ∧ last.stats.sent = 1 ∧
      last.stats.expired = 1))
    (show (ScriptedNode.rehearse [0, 0, 0, 0, 10] sampleTransmission).any _ = true by
      decide +kernel)
  obtain ⟨haccounts, hruns, -⟩ :=
    transmit_accounts TailByteEngine.conserves rfl hstart sampleTransmission
  obtain ⟨history, hhistory⟩ := (hruns last).mp hrun
  obtain ⟨⟨inserted, sent, expired, hflows, hperm, -⟩, -⟩ := haccounts last history hhistory
  exact ⟨TailByteEngine.conserves, rfl, node, last, history, inserted, sent, expired, hstart,
    hhistory, hflows, hperm, of_decide_eq_true hlast⟩

end Node

end CanNode
