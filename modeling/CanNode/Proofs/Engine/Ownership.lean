import CanNode.Proofs.Engine.Queue
import CanNode.Proofs.Heap.Holdings

/-!
# Blocks that an engine keeps

An engine and its node share a heap.  `Engine.Frugal` says that between its operations the engine
keeps the payloads of its queue and nothing else: what it allocates besides, it hands out with a
completed transfer or gives back.  `Engine.Careful` allows it other blocks of its own, but says that
it touches no payload once it is in the queue.  `TailByteEngine.frugal` and `TailByteEngine.careful`
say that a tail-byte engine is both.
-/

namespace CanNode

def payloads (frames : List QueuedFrame) : List Block :=
  frames.map QueuedFrame.payload

def AcceptOutcome.block? : AcceptOutcome → Option Block
  | .complete transfer => transfer.payload
  | _ => none

/-- Before and after every operation the payloads of the queue are what is live.  A block that
comes with a completed transfer is the caller's from then on. -/
structure Engine.Frugal {σ : Type} [Engine σ] (queue : σ → List QueuedFrame) : Prop
    extends Queues queue where
  configure : ∀ config engine,
    (payloads (queue (Engine.configure config engine))).Perm (payloads (queue engine))
  subscribe : ∀ topic params engine,
    (payloads (queue (Engine.subscribe topic params engine).2)).Perm (payloads (queue engine))
  accept : ∀ {arena heap frame engine outcome next heap'},
    Ledger.Holds arena ⟨heap, payloads (queue engine)⟩ →
      Engine.accept frame engine heap = .ok (outcome, next, heap') →
        Ledger.Leads ⟨heap, payloads (queue engine)⟩
          ⟨heap', outcome.block?.toList ++ payloads (queue next)⟩
  unsubscribe : ∀ {arena heap topic engine closed next heap'},
    Ledger.Holds arena ⟨heap, payloads (queue engine)⟩ →
      Engine.unsubscribe topic engine heap = .ok (closed, next, heap') →
        Ledger.Leads ⟨heap, payloads (queue engine)⟩ ⟨heap', payloads (queue next)⟩
  push : ∀ {arena heap deadline metadata payload engine answer next heap'},
    Ledger.Holds arena ⟨heap, payloads (queue engine)⟩ →
      Engine.push deadline metadata payload engine heap = .ok (answer, next, heap') →
        Ledger.Leads ⟨heap, payloads (queue engine)⟩ ⟨heap', payloads (queue next)⟩

/-- The engine uses the heap only through blocks of its own.  The payloads of waiting frames are not
among them: a push makes them over, and they stay as they are until the frame is popped.  A block
that comes with a completed transfer is the caller's from then on. -/
structure Engine.Careful {σ : Type} [Engine σ] (waiting : σ → List QueuedFrame)
    (own : σ → List Block) : Prop where
  configure : ∀ config engine,
    (waiting (Engine.configure config engine)).Perm (waiting engine) ∧
      (own (Engine.configure config engine)).Perm (own engine)
  subscribe : ∀ topic params engine,
    (waiting (Engine.subscribe topic params engine).2).Perm (waiting engine) ∧
      (own (Engine.subscribe topic params engine).2).Perm (own engine)
  peek : ∀ {engine frame}, Engine.peek engine = some frame → frame ∈ waiting engine
  pop : ∀ {engine answer next}, Engine.pop engine = (answer, next) →
    (waiting engine).Perm (answer.toList ++ waiting next) ∧ (own next).Perm (own engine)
  accept : ∀ {arena heap frame engine outcome next heap'},
    Ledger.Holds arena ⟨heap, own engine ++ payloads (waiting engine)⟩ →
      Engine.accept frame engine heap = .ok (outcome, next, heap') →
        (waiting next).Perm (waiting engine) ∧
          Ledger.Leads ⟨heap, own engine⟩ ⟨heap', outcome.block?.toList ++ own next⟩
  unsubscribe : ∀ {arena heap topic engine closed next heap'},
    Ledger.Holds arena ⟨heap, own engine ++ payloads (waiting engine)⟩ →
      Engine.unsubscribe topic engine heap = .ok (closed, next, heap') →
        (waiting next).Perm (waiting engine) ∧ Ledger.Leads ⟨heap, own engine⟩ ⟨heap', own next⟩
  push : ∀ {arena heap deadline metadata payload engine answer next heap'},
    Ledger.Holds arena ⟨heap, own engine ++ payloads (waiting engine)⟩ →
      Engine.push deadline metadata payload engine heap = .ok (answer, next, heap') →
        ∃ inserted, (waiting next).Perm (waiting engine ++ inserted) ∧
          Ledger.Leads ⟨heap, own engine⟩ ⟨heap', payloads inserted ++ own next⟩

theorem Engine.Frugal.payloads_subscribe {σ : Type} [Engine σ] {queue : σ → List QueuedFrame}
    {topic : Topic} {params : SessionParams} {answer : Except EngineError Unit} {engine next : σ}
    (h : Frugal queue) (hsubscribe : Engine.subscribe topic params engine = (answer, next)) :
    (payloads (queue next)).Perm (payloads (queue engine)) := by
  simpa [hsubscribe] using h.subscribe topic params engine

open Ledger

variable {arena : Arena} {heap heap' : Heap} {live mine : List Block}

theorem Transfer.leads_create {metadata : Metadata} {timestamp : Micros} {data : Bytes}
    {answer : Option Transfer} (h : Holds arena ⟨heap, live⟩)
    (hcreate : create heap metadata timestamp data = .ok (answer, heap')) :
    Leads ⟨heap, mine⟩ ⟨heap', (answer.bind Transfer.payload).toList ++ mine⟩ := by
  unfold create at hcreate
  split at hcreate
  · cases hcreate
    exact .refl
  · obtain ⟨⟨_ | block, stored⟩, hstore, hcreate⟩ := Fault.bind_eq_ok hcreate
    · cases hcreate
      exact h.leads_store hstore
    · cases hcreate
      exact h.leads_store hstore

namespace TailByteEngine

theorem leads_complete {assembly : Assembly} {extent : Nat} {outcome : AcceptOutcome}
    (h : Holds arena ⟨heap, live⟩) (hcomplete : complete assembly extent heap =
      .ok (outcome, heap')) : Leads ⟨heap, mine⟩ ⟨heap', outcome.block?.toList ++ mine⟩ := by
  obtain ⟨⟨_ | transfer, stored⟩, hcreate, hcomplete⟩ := Fault.bind_eq_ok hcomplete
  · cases hcomplete
    exact Transfer.leads_create h hcreate
  · cases hcomplete
    exact Transfer.leads_create h hcreate

variable {engine next : TailByteEngine}

theorem leads_acceptTailed {frame : Assembly} {tail : Tail} {extent : Nat}
    {outcome : AcceptOutcome} (h : Holds arena ⟨heap, live⟩)
    (haccept : engine.acceptTailed frame tail extent heap = .ok (outcome, next, heap')) :
    Leads ⟨heap, mine⟩ ⟨heap', outcome.block?.toList ++ mine⟩ := by
  unfold acceptTailed at haccept
  split at haccept
  · split at haccept
    · obtain ⟨⟨made, completed⟩, hcomplete, haccept⟩ := Fault.bind_eq_ok haccept
      cases haccept
      exact leads_complete h hcomplete
    · cases haccept
      exact .refl
  split at haccept
  · cases haccept
    exact .refl
  split at haccept
  · split at haccept
    · obtain ⟨⟨made, completed⟩, hcomplete, haccept⟩ := Fault.bind_eq_ok haccept
      cases haccept
      exact leads_complete h hcomplete
    · cases haccept
      exact .refl
  · cases haccept
    exact .refl

theorem leads_accept {frame : ReceivedFrame} {outcome : AcceptOutcome}
    (h : Holds arena ⟨heap, live⟩)
    (haccept : engine.accept frame heap = .ok (outcome, next, heap')) :
    Leads ⟨heap, mine⟩ ⟨heap', outcome.block?.toList ++ mine⟩ := by
  unfold accept at haccept
  split at haccept
  · split at haccept
    · exact leads_acceptTailed h haccept
    · cases haccept
      exact .refl
  · cases haccept
    exact .refl

theorem leads_freeAll {blocks : List Block} (hfree : freeAll heap blocks = .ok heap') :
    Leads ⟨heap, blocks ++ mine⟩ ⟨heap', mine⟩ := by
  induction blocks generalizing heap with
  | nil =>
      cases hfree
      exact .refl
  | cons block rest ih =>
      obtain ⟨middle, hfirst, hrest⟩ := Fault.bind_eq_ok hfree
      have hleads : Leads ⟨heap, block :: rest ++ mine⟩
          ⟨middle, (block :: rest ++ mine).erase block⟩ :=
        .free List.mem_cons_self hfirst
      rw [List.cons_append, List.erase_cons_head] at hleads
      exact hleads.trans (ih hrest)

/-- Either all blocks are kept or none is. -/
theorem leads_storeAll {stored : List Block} {fields : List Bytes} {answer : Option (List Block)}
    (h : Holds arena ⟨heap, live⟩)
    (hstore : storeAll heap stored fields = .ok (answer, heap')) :
    Leads ⟨heap, stored ++ mine⟩ ⟨heap', answer.getD [] ++ mine⟩ := by
  induction fields generalizing heap live stored with
  | nil =>
      cases hstore
      exact .refl
  | cons data rest ih =>
      obtain ⟨⟨_ | block, middle⟩, hfirst, hrest⟩ := Fault.bind_eq_ok hstore
      · obtain ⟨freed, hfree, hrest⟩ := Fault.bind_eq_ok hrest
        cases hrest
        exact (h.leads_store hfirst).trans (leads_freeAll hfree)
      · have hperm : (block :: (stored ++ mine)).Perm (stored ++ [block] ++ mine) := by
          rw [List.append_assoc]
          exact List.perm_middle.symm
        have hleads := (h.leads_store hfirst).trans (.of_perm hperm)
        exact hleads.trans (ih (h.leads (h.leads_store hfirst)) hrest)

/-- A push takes up one block for every frame that it puts into the queue. -/
theorem leads_push {deadline : Micros} {metadata : Metadata} {payload : Bytes}
    {answer : Except EngineError Nat} (h : Holds arena ⟨heap, live⟩)
    (hpush : engine.push deadline metadata payload heap = .ok (answer, next, heap')) :
    ∃ inserted, next.queue.Perm (engine.queue ++ inserted) ∧
      Leads ⟨heap, mine⟩ ⟨heap', payloads inserted ++ mine⟩ := by
  obtain ⟨-, rfl, rfl⟩ | ⟨fields, ⟨-, rfl, hstore⟩ | ⟨identifier, blocks, -, hstore, rfl⟩⟩ :=
    push_cases hpush
  · exact ⟨[], by rw [List.append_nil], .refl⟩
  · exact ⟨[], by rw [List.append_nil], leads_storeAll h hstore⟩
  · let frames := blocks.map fun block => (⟨deadline, identifier, block⟩ : QueuedFrame)
    have hframes : payloads frames = blocks := by simp [frames, payloads, Function.comp_def]
    refine ⟨frames, foldl_insert_perm frames engine.queue, ?_⟩
    rw [hframes]
    exact leads_storeAll h hstore

theorem frugal : Engine.Frugal TailByteEngine.queue where
  toQueues := queues
  configure _ _ := .refl _
  subscribe topic params engine := by
    rw [conserves.subscribe topic params engine]
  accept h haccept := by
    rw [queue_accept haccept]
    exact leads_accept h haccept
  unsubscribe h hunsubscribe := by
    cases hunsubscribe
    exact .refl
  push h hpush := by
    obtain ⟨inserted, hqueue, hleads⟩ := leads_push h hpush
    have hperm := hqueue.map QueuedFrame.payload
    rw [List.map_append] at hperm
    exact hleads.trans (.of_perm (hperm.trans List.perm_append_comm).symm)

theorem careful : Engine.Careful TailByteEngine.queue fun _ => [] where
  configure _ _ := ⟨.refl _, .refl _⟩
  subscribe topic params engine := ⟨.of_eq (conserves.subscribe topic params engine), .refl _⟩
  peek hpeek := List.mem_of_mem_head? hpeek
  pop {engine answer next} hpop := by
    refine ⟨?_, .refl _⟩
    cases hpop
    cases hqueue : engine.queue <;> simp
  accept h haccept := ⟨.of_eq (queue_accept haccept), leads_accept h haccept⟩
  unsubscribe h hunsubscribe := by
    cases hunsubscribe
    exact ⟨.refl _, .refl⟩
  push h hpush := leads_push h hpush

end TailByteEngine

end CanNode
