import CanNode.Proofs.Node.Computation
import CanNode.Proofs.Node.Script

/-!
# Deadlines are kept

A transfer is queued with a deadline that does not go past the end of time, and a later look at
the head of the queue compares that deadline with the clock.  `Node.expires_iff_overdue` says that
together they decide as arithmetic without bounds does.
-/

namespace CanNode

/-- A reading of a clock that is itself bounded is past a deadline exactly if it is past the sum. -/
theorem Micros.after_lt_iff {start timeout now : Micros} :
    start.after timeout < now ↔ start.toNat + timeout.toNat < now.toNat := by
  have hnow : now.toNat < 2 ^ 64 := now.toNat_lt
  rw [UInt64.lt_iff_toNat_lt, toNat_after, endOfTime]
  omega

/-- The frames that a push puts into the queue carry the deadline that it is given. -/
structure Engine.Stamps {σ : Type} [Engine σ] (queue : σ → List QueuedFrame) : Prop
    extends Engine.Conserves queue where
  stamp : ∀ {deadline metadata payload engine heap count next heap'},
    Engine.push deadline metadata payload engine heap = .ok (.ok count, next, heap') →
      ∀ frame ∈ queue next, frame ∈ queue engine ∨ frame.deadline = deadline

theorem Engine.Queues.mem_of_pop {σ : Type} [Engine σ] {queue : σ → List QueuedFrame}
    {engine next : σ} {answer : Option QueuedFrame} {frame : QueuedFrame} (h : Queues queue)
    (hpop : Engine.pop engine = (answer, next)) (hframe : frame ∈ queue next) :
    frame ∈ queue engine := by
  have hrest := h.rest engine
  rw [hpop] at hrest
  rw [hrest] at hframe
  exact List.mem_of_mem_tail hframe

theorem TailByteEngine.stamps : Engine.Stamps TailByteEngine.queue where
  toConserves := conserves
  stamp h := by
    obtain ⟨⟨error, herror⟩, -⟩ | ⟨fields, ⟨herror, -⟩ | ⟨id, blocks, -, -, rfl⟩⟩ :=
      push_cases h
    · cases herror
    · cases herror
    · intro frame hframe
      obtain hold | hnew := List.mem_append.mp ((foldl_insert_perm _ _).mem_iff.mp hframe)
      · exact .inl hold
      · obtain ⟨block, -, rfl⟩ := List.mem_map.mp hnew
        exact .inr rfl

namespace Node

variable {σ κ ρ α τ : Type} [Engine σ] [Clock κ]

/-! ## What was queued, and when -/

/-- Between two nodes a transfer was queued, at the time `start` and for `timeout`, and `deadline`
is what the engine was told. -/
inductive Pushed (τ : Type) [Receiver ρ (Shared α)] [Transmitter τ] (first last : Node σ κ ρ α)
    (start timeout deadline : Micros) : Prop where
  | intro {past before metadata payload answer heap after rest}
      (hpast : first.Steps τ past before)
      (henqueue : before.Handles (τ := τ) (.enqueue timeout metadata payload)
        [.clock start, .engine (.push deadline metadata payload answer) heap] after)
      (hrest : after.Steps τ rest last)

section Pushed

variable [Receiver ρ (Shared α)] [Transmitter τ] {first node next middle last : Node σ κ ρ α}
  {start timeout deadline : Micros} {history : List (Event ρ)}

namespace Pushed

theorem deadline_eq (h : Pushed τ first last start timeout deadline) :
    deadline = start.after timeout := by
  obtain ⟨-, henqueue, -⟩ := h
  cases henqueue with
  | enqueued | notEnqueued => rfl

theorem of_enqueue {metadata : Metadata} {payload : Bytes} {answer : Except EnqueueError Nat}
    (h : node.enqueue timeout metadata payload = .ok (answer, next)) :
    Pushed τ node next (Clock.read node.clock).1 timeout
      ((Clock.read node.clock).1.after timeout) := by
  obtain ⟨⟨count | error, engine, heap⟩, hpush, h⟩ := Fault.bind_eq_ok h
  · cases h
    exact ⟨.nil, .notEnqueued rfl hpush, .nil⟩
  · cases h
    exact ⟨.nil, .enqueued rfl hpush, .nil⟩

theorem exists_steps (h : Pushed τ first last start timeout deadline) :
    ∃ history, first.Steps τ history last := by
  obtain ⟨hpast, henqueue, hrest⟩ := h
  exact ⟨_, hpast.append (.cons (.handle henqueue) hrest)⟩

theorem append (h : Pushed τ first middle start timeout deadline)
    (hrest : middle.Steps τ history last) : Pushed τ first last start timeout deadline := by
  obtain ⟨hpast, henqueue, hmiddle⟩ := h
  exact ⟨hpast, henqueue, hmiddle.append hrest⟩

theorem prepend (hfirst : first.Steps τ history middle)
    (h : Pushed τ middle last start timeout deadline) :
    Pushed τ first last start timeout deadline := by
  obtain ⟨hpast, henqueue, hrest⟩ := h
  exact ⟨hfirst.append hpast, henqueue, hrest⟩

end Pushed

/-- A caller queued the transfer, and the engine was told the sum of start and timeout, or the end
of time if the sum lies beyond it. -/
theorem pushed_iff : Pushed τ first last start timeout deadline ↔
    ∃ past before metadata payload answer after rest pushed,
      first.Steps τ past before ∧ (Clock.read before.clock).1 = start ∧
      before.enqueue timeout metadata payload = .ok (answer, after) ∧
      Engine.push deadline metadata payload before.engine before.heap =
        .ok (pushed, after.engine, after.heap) ∧
      deadline.toNat = min (start.toNat + timeout.toNat) Micros.endOfTime ∧
      after.Steps τ rest last := by
  constructor
  · rintro ⟨hpast, hhandle, hrest⟩
    obtain ⟨⟨answer, after⟩, henqueue, rfl⟩ := Fault.map_eq_ok hhandle.perform_eq
    cases hhandle with
    | enqueued hclock hpush | notEnqueued hclock hpush =>
        exact ⟨_, _, _, _, answer, _, _, _, hpast, congrArg Prod.fst hclock, henqueue, hpush,
          Micros.toNat_after start timeout, hrest⟩
  · rintro ⟨past, before, metadata, payload, answer, after, rest, pushed, hpast, rfl, henqueue, -,
      hdeadline, hrest⟩
    have hsum : deadline = (Clock.read before.clock).1.after timeout :=
      UInt64.toNat_inj.mp (hdeadline.trans (Micros.toNat_after _ _).symm)
    rw [hsum]
    exact ((Pushed.of_enqueue henqueue).append hrest).prepend hpast

variable {queue : σ → List QueuedFrame} (hstamps : Engine.Stamps queue) {frame : QueuedFrame}

include hstamps

theorem Step.mem_or_pushed {events : List (Event ρ)} (h : node.Step τ events next)
    (hframe : frame ∈ queue next.engine) : frame ∈ queue node.engine ∨
      ∃ start timeout, Pushed τ node next start timeout frame.deadline := by
  cases h with
  | process _ hprocess =>
      refine .inl ?_
      cases hprocess with
      | rejected haccept | fragment haccept | outOfMemory haccept | unhandled haccept
      | delivered haccept => exact hstamps.accept haccept ▸ hframe
  | look hlook =>
      refine .inl ?_
      cases hlook with
      | empty | refused => exact hframe
      | expired _ _ _ hpop | expiredKept _ _ _ hpop => exact hstamps.mem_of_pop hpop hframe
      | sent _ _ _ _ _ hpop | sentKept _ _ _ _ _ hpop => exact hstamps.mem_of_pop hpop hframe
  | handle hhandle =>
      have henqueue := hhandle
      cases hhandle with
      | invalidPort | registryFull | unknown | received | arrived | clockRead => exact .inl hframe
      | sessionRefused _ _ hsession | subscribed _ hsession =>
          exact .inl (hstamps.queue_subscribe hsession ▸ hframe)
      | unsubscribed _ hsession => exact .inl (hstamps.unsubscribe hsession ▸ hframe)
      | notEnqueued _ hpush => exact .inl (hstamps.refuse hpush ▸ hframe)
      | enqueued hclock hpush =>
          obtain hold | hdeadline := hstamps.stamp hpush frame hframe
          · exact .inl hold
          · rw [hdeadline]
            exact .inr ⟨_, _, .nil, henqueue, .nil⟩

/-- A frame that waits after a run waited before it, or was pushed in it. -/
theorem Steps.mem_or_pushed (h : node.Steps τ history last)
    (hframe : frame ∈ queue last.engine) : frame ∈ queue node.engine ∨
      ∃ start timeout, Pushed τ node last start timeout frame.deadline := by
  induction h with
  | nil => exact .inl hframe
  | cons hstep hrest ih =>
      obtain hmiddle | ⟨start, timeout, hpushed⟩ := ih hframe
      · refine (hstep.mem_or_pushed hstamps hmiddle).imp_right ?_
        rintro ⟨start, timeout, hpushed⟩
        exact ⟨start, timeout, hpushed.append hrest⟩
      · exact .inr ⟨start, timeout, hpushed.prepend hstep.steps⟩

end Pushed

/-! ## What a look does with it -/

/-- The head is not offered: the engine is asked to hand it out, and what it hands out is given
back and counts as expired. -/
structure Drops (node : Node σ κ ρ α) (events : List (Event ρ)) (next : Node σ κ ρ α) : Prop where
  unoffered : ∀ frame accepted, .offered frame accepted ∉ events
  popped : .engine (.pop (Engine.pop node.engine).1) node.heap ∈ events
  freed : ∀ frame ∈ (Engine.pop node.engine).1, .freed frame.payload ∈ events
  counted : next.stats = { node.stats with
    expired := node.stats.expired + .ofNat (Engine.pop node.engine).1.toList.length }

/-- The head is offered to the transmitter.  If it accepts, what the engine hands out counts as
sent. -/
def Presents (node : Node σ κ ρ α) (head : QueuedFrame) (events : List (Event ρ))
    (next : Node σ κ ρ α) : Prop :=
  ∃ data accepted, node.heap.read head.payload = .ok data ∧
    .offered ⟨head.id, data, head.deadline⟩ accepted ∈ events ∧
    next.stats = if accepted then { node.stats with
      sent := node.stats.sent + .ofNat (Engine.pop node.engine).1.toList.length } else node.stats

variable [Transmitter τ] {node next : Node σ κ ρ α} {head : QueuedFrame} {transmitter final : τ}
  {events : List (Event ρ)} {again : Bool}

omit [Clock κ] in
theorem Presents.not_drops (h : node.Presents head events next) : ¬ node.Drops events next := by
  obtain ⟨data, accepted, -, hoffered, -⟩ := h
  exact fun hdrops => hdrops.unoffered _ _ hoffered

/-- A head is dropped if it is late, and offered if it is not. -/
theorem Looks.drops_or_presents (h : node.Looks transmitter events again next final)
    (hpeek : Engine.peek node.engine = some head) :
    (head.deadline < (Clock.read node.clock).1 ∧ node.Drops events next) ∨
      (¬ head.deadline < (Clock.read node.clock).1 ∧ node.Presents head events next) := by
  have hhead {other : QueuedFrame} (hother : Engine.peek node.engine = some other) : other = head :=
    Option.some.inj (hother.symm.trans hpeek)
  cases h with
  | empty _ hnone => cases hnone.symm.trans hpeek
  | expired hclock hother hlate hpop hfree | expiredKept hclock hother hlate hpop =>
      obtain rfl := hhead hother
      rw [hclock]
      exact .inl ⟨hlate, by simp, by simp [hpop], by simp [hpop], by simp [hpop]⟩
  | refused hclock hother hdue hread hoffer =>
      obtain rfl := hhead hother
      rw [hclock]
      exact .inr ⟨hdue, _, false, hread, by simp, rfl⟩
  | sent hclock hother hdue hread hoffer hpop | sentKept hclock hother hdue hread hoffer hpop =>
      obtain rfl := hhead hother
      rw [hclock]
      exact .inr ⟨hdue, _, true, hread, by simp, by simp [hpop]⟩

/-- A head that can be read is looked at without a fault if what is handed out can be given back. -/
theorem exists_looks {data : Bytes} (hpeek : Engine.peek node.engine = some head)
    (hread : node.heap.read head.payload = .ok data)
    (hfree : ∀ frame ∈ (Engine.pop node.engine).1, ∃ heap, node.heap.free frame.payload = .ok heap)
    (transmitter : τ) :
    ∃ events again next final, node.Looks transmitter events again next final := by
  rcases hclock : Clock.read node.clock with ⟨time, clock⟩
  rcases hpop : Engine.pop node.engine with ⟨answer, engine⟩
  rw [hpop] at hfree
  by_cases hlate : head.deadline < time
  · cases answer with
    | none => exact ⟨_, _, _, _, .expiredKept hclock hpeek hlate hpop⟩
    | some frame =>
        obtain ⟨heap, hfree⟩ := hfree frame rfl
        exact ⟨_, _, _, _, .expired hclock hpeek hlate hpop hfree⟩
  · rcases hoffer : Transmitter.transmit ⟨head.id, data, head.deadline⟩ transmitter with
      ⟨_ | _, final⟩
    · exact ⟨_, _, _, _, .refused hclock hpeek hlate hread hoffer⟩
    cases answer with
    | none => exact ⟨_, _, _, _, .sentKept hclock hpeek hlate hread hoffer hpop⟩
    | some frame =>
        obtain ⟨heap, hfree⟩ := hfree frame rfl
        exact ⟨_, _, _, _, .sent hclock hpeek hlate hread hoffer hpop hfree⟩

/-- A frame with the deadline of a transfer that was queued at `start` for `timeout` is dropped
when the clock is past their sum, and offered as long as it is not; a sum beyond the end of time is
never past.  Engines that stamp frames have no other deadlines in their queues, and hand out what
they show. -/
theorem expires_iff_overdue [Receiver ρ (Shared α)] :
    (∀ (first last : Node σ κ ρ α) (start timeout deadline : Micros),
      Pushed τ first last start timeout deadline ↔
        ∃ past before metadata payload answer after rest pushed,
          first.Steps τ past before ∧ (Clock.read before.clock).1 = start ∧
          before.enqueue timeout metadata payload = .ok (answer, after) ∧
          Engine.push deadline metadata payload before.engine before.heap =
            .ok (pushed, after.engine, after.heap) ∧
          deadline.toNat = min (start.toNat + timeout.toNat) Micros.endOfTime ∧
          after.Steps τ rest last) ∧
    (∀ (first last : Node σ κ ρ α) (start timeout deadline : Micros) (head : QueuedFrame),
      Pushed τ first last start timeout deadline → Engine.peek last.engine = some head →
      head.deadline = deadline → ∀ transmitter : τ,
      let now := (Clock.read last.clock).1
      (∀ events again next final, last.Looks transmitter events again next final →
        (last.Drops events next ↔ start.toNat + timeout.toNat < now.toNat) ∧
        (last.Presents head events next ↔ now.toNat ≤ start.toNat + timeout.toNat) ∧
        (Micros.endOfTime ≤ start.toNat + timeout.toNat → ¬ last.Drops events next) ∧
        ∀ budget, last.drain transmitter (budget + 1) =
          if again then next.drain final budget else .ok (next, final)) ∧
      ∀ data, last.heap.read head.payload = .ok data →
        (∀ frame ∈ (Engine.pop last.engine).1, ∃ heap,
          last.heap.free frame.payload = .ok heap) →
        ∃ events again next final, last.Looks transmitter events again next final) ∧
    ∀ (queue : σ → List QueuedFrame), Engine.Stamps queue →
      ∀ (first last : Node σ κ ρ α) history, queue first.engine = [] →
        first.Steps τ history last →
        (Engine.pop last.engine).1 = Engine.peek last.engine ∧
        ∀ frame ∈ queue last.engine,
          ∃ start timeout, Pushed τ first last start timeout frame.deadline := by
  refine ⟨fun first last start timeout deadline => pushed_iff, ?_, ?_⟩
  · intro first last start timeout deadline head hpushed hpeek hdeadline transmitter now
    have hlate : head.deadline < now ↔ start.toNat + timeout.toNat < now.toNat := by
      rw [hdeadline, hpushed.deadline_eq, Micros.after_lt_iff]
    have hnow : now.toNat ≤ Micros.endOfTime := Nat.le_of_lt_succ now.toNat_lt
    refine ⟨fun events again next final hlook => ?_, fun data hread hfree =>
      exists_looks hpeek hread hfree transmitter⟩
    obtain ⟨hpast, hdrops⟩ | ⟨hdue, hpresents⟩ := hlook.drops_or_presents hpeek
    · have hpast := hlate.mp hpast
      have hkept : ¬ last.Presents head events next := fun hpresents => hpresents.not_drops hdrops
      exact ⟨iff_of_true hdrops hpast, iff_of_false hkept (Nat.not_le.mpr hpast),
        fun hend => absurd hpast (Nat.not_lt.mpr (Nat.le_trans hnow hend)), hlook.drain_succ⟩
    · have hdue := mt hlate.mpr hdue
      exact ⟨iff_of_false hpresents.not_drops hdue, iff_of_true hpresents (Nat.not_lt.mp hdue),
        fun _ => hpresents.not_drops, hlook.drain_succ⟩
  · intro queue hstamps first last history hempty hsteps
    refine ⟨(hstamps.pop _).trans (hstamps.peek _).symm, fun frame hframe => ?_⟩
    obtain hold | hpushed := hsteps.mem_or_pushed hstamps hframe
    · rw [hempty] at hold
      cases hold
    · exact hpushed

private theorem exists_ok_of_isSome {ε β : Type} {result : Except ε β}
    (h : result.toOption.isSome = true) : ∃ value, result = .ok value := by
  cases result with
  | error error => cases h
  | ok value => exact ⟨value, rfl⟩

private theorem exists_pushed (start timeout now : Micros)
    (h : (ScriptedNode.rehearse [start, now]
        [.enqueue timeout (.message (.ofNat 100) default) [1, 2]]).any (fun last =>
      last.clock.times == [now] && last.engine.queue.map (fun head => (head.deadline,
        (last.heap.read head.payload).toOption.isSome,
        (last.heap.free head.payload).toOption.isSome)) ==
          [(start.after timeout, true, true)]) = true) :
    ∃ (first last : ScriptedNode) (head : QueuedFrame), first.engine.queue = [] ∧
      Pushed ScriptedTransmitter first last start timeout (start.after timeout) ∧
      Engine.peek last.engine = some head ∧ head.deadline = start.after timeout ∧
      (Clock.read last.clock).1 = now ∧ ∃ data,
        last.heap.read head.payload = .ok data ∧ ∀ frame ∈ (Engine.pop last.engine).1, ∃ heap,
          last.heap.free frame.payload = .ok heap := by
  obtain ⟨first, last, hstart, hrun, hlast⟩ := ScriptedNode.exists_run_of_rehearse h
  obtain ⟨heap, -, rfl⟩ := start_eq_ok hstart
  obtain ⟨middle, hfirst, hrest⟩ := Fault.bind_eq_ok hrun
  cases hrest
  obtain ⟨⟨answer, next⟩, henqueue, rfl⟩ := Fault.map_eq_ok hfirst
  simp only [Bool.and_eq_true, beq_iff_eq, List.map_eq_singleton_iff, Prod.mk.injEq] at hlast
  obtain ⟨htimes, head, hqueue, hdeadline, hread, hfree⟩ := hlast
  obtain ⟨data, hread⟩ := exists_ok_of_isSome hread
  obtain ⟨freed, hfree⟩ := exists_ok_of_isSome hfree
  have hhead : next.engine.queue.head? = some head := by rw [hqueue]; rfl
  have hnow : next.clock.times.headD 0 = now := by rw [htimes]; rfl
  refine ⟨_, next, head, rfl, .of_enqueue henqueue, hhead, hdeadline, hnow, data, hread, ?_⟩
  intro frame hframe
  obtain rfl : head = frame := Option.some.inj (hhead.symm.trans hframe)
  exact ⟨freed, hfree⟩

/-- A frame whose deadline has passed, and one that is sent at the end of time. -/
theorem expires_iff_overdue_sample :
    (∃ (first last : ScriptedNode) (head : QueuedFrame) (events : List (Event Recorder))
      (next : ScriptedNode) (start timeout : Micros),
        Pushed ScriptedTransmitter first last 10 5 (Micros.after 10 5) ∧
        (Clock.read last.clock).1 = 16 ∧ last.Drops events next ∧
        Engine.Stamps TailByteEngine.queue ∧ head ∈ last.engine.queue ∧
        Pushed ScriptedTransmitter first last start timeout head.deadline) ∧
      ∃ (first last : ScriptedNode) (head : QueuedFrame) (events : List (Event Recorder))
        (next : ScriptedNode), Pushed ScriptedTransmitter first last 0xFFFFFFFFFFFFFFFD 10
          (Micros.after 0xFFFFFFFFFFFFFFFD 10) ∧
        (Clock.read last.clock).1 = 0xFFFFFFFFFFFFFFFF ∧ last.Presents head events next := by
  obtain ⟨-, hlooks, hstamped⟩ := expires_iff_overdue (σ := TailByteEngine) (κ := ScriptedClock)
    (ρ := Recorder) (α := List (Nat × Bytes)) (τ := ScriptedTransmitter)
  constructor
  · obtain ⟨first, last, head, hempty, hpushed, hpeek, hdeadline, hnow, data, hread, hfree⟩ :=
      exists_pushed 10 5 16 (by decide +kernel)
    obtain ⟨hverdict, hlook⟩ := hlooks _ _ _ _ _ _ hpushed hpeek hdeadline ⟨[true]⟩
    obtain ⟨events, again, next, final, hlook⟩ := hlook data hread hfree
    have hdrops : last.Drops events next := by
      refine (hverdict _ _ _ _ hlook).1.mpr ?_
      rw [hnow]
      decide
    have hqueued : head ∈ last.engine.queue := List.mem_of_mem_head? hpeek
    obtain ⟨history, hsteps⟩ := hpushed.exists_steps
    obtain ⟨-, hframes⟩ :=
      hstamped _ TailByteEngine.stamps first last history hempty hsteps
    obtain ⟨start, timeout, hstamp⟩ := hframes head hqueued
    exact ⟨first, last, head, events, next, start, timeout, hpushed, hnow, hdrops,
      TailByteEngine.stamps, hqueued, hstamp⟩
  · obtain ⟨first, last, head, -, hpushed, hpeek, hdeadline, hnow, data, hread, hfree⟩ :=
      exists_pushed 0xFFFFFFFFFFFFFFFD 10 0xFFFFFFFFFFFFFFFF (by decide +kernel)
    obtain ⟨hverdict, hlook⟩ := hlooks _ _ _ _ _ _ hpushed hpeek hdeadline ⟨[true]⟩
    obtain ⟨events, again, next, final, hlook⟩ := hlook data hread hfree
    refine ⟨first, last, head, events, next, hpushed, hnow, (hverdict _ _ _ _ hlook).2.1.mpr ?_⟩
    rw [hnow]
    decide

end Node

end CanNode
