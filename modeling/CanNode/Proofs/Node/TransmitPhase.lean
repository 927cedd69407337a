import CanNode.Proofs.Node.Balance
import Mathlib.Logic.Function.Iterate

/-!
# What a transmit phase does

`Node.settle` goes through a queue as a transmit phase should: by recursion on the queue, so that
it ends, with one reading of the clock for every look at a head.  `Course.Follows` says what comes
out of it.  `Node.transmitPhase_settles` says that the phase does just that with any engine whose
queue is a sequence, and where it stops with an engine that shows a head and does not hand it out.
-/

namespace CanNode

def Clock.readings {κ : Type} [Clock κ] (clock : κ) : Nat → List Micros × κ
  | 0 => ([], clock)
  | count + 1 =>
      let (time, clock) := Clock.read clock
      let (times, clock) := readings clock count
      (time :: times, clock)

def Transmitter.answers {τ : Type} [Transmitter τ] (transmitter : τ) :
    List OutgoingFrame → List Bool × τ
  | [] => ([], transmitter)
  | frame :: rest =>
      let (accepted, transmitter) := Transmitter.transmit frame transmitter
      let (others, transmitter) := answers transmitter rest
      (accepted :: others, transmitter)

namespace Node

/-- What comes of a look at the head of a queue, with the data that a transmitter is offered. -/
inductive Verdict where
  | expired
  | sent (data : Bytes)
  | refused (data : Bytes)
deriving DecidableEq

/-- A look at the head of a queue, at the time that the clock shows. -/
structure Inspection where
  frame : QueuedFrame
  time : Micros
  verdict : Verdict
deriving DecidableEq

namespace Inspection

def offer? (look : Inspection) : Option (OutgoingFrame × Bool) :=
  match look.verdict with
  | .expired => none
  | .sent data => some (⟨look.frame.id, data, look.frame.deadline⟩, true)
  | .refused data => some (⟨look.frame.id, data, look.frame.deadline⟩, false)

def isExpired (look : Inspection) : Bool :=
  match look.verdict with
  | .expired => true
  | .sent _ => false
  | .refused _ => false

def isSent (look : Inspection) : Bool :=
  look.offer?.any (·.2)

def retires (look : Inspection) : Bool :=
  look.isExpired || look.isSent

end Inspection

/-- What comes of a queue. -/
structure Course (κ τ : Type) where
  looks : List Inspection
  idle : Option Micros
  waiting : List QueuedFrame
  heap : Heap
  clock : κ
  transmitter : τ

def Course.after {κ τ : Type} (course : Course κ τ) (look : Inspection) : Course κ τ :=
  { course with looks := look :: course.looks }

variable {σ κ ρ α τ : Type}

section Settle

variable [Clock κ] [Transmitter τ]

/-- Go through a queue: drop heads that are late, and offer the others to the transmitter until it
refuses one or none is left. -/
def settle (heap : Heap) : List QueuedFrame → κ → τ → Except Fault (Course κ τ)
  | [], clock, transmitter =>
      let (time, clock) := Clock.read clock
      .ok ⟨[], some time, [], heap, clock, transmitter⟩
  | head :: rest, clock, transmitter =>
      let (time, clock) := Clock.read clock
      if head.deadline < time then do
        let heap ← heap.free head.payload
        let course ← settle heap rest clock transmitter
        return course.after ⟨head, time, .expired⟩
      else do
        let data ← heap.read head.payload
        let (accepted, transmitter) :=
          Transmitter.transmit ⟨head.id, data, head.deadline⟩ transmitter
        if accepted then do
          let heap ← heap.free head.payload
          let course ← settle heap rest clock transmitter
          return course.after ⟨head, time, .sent data⟩
        else
          return ⟨[⟨head, time, .refused data⟩], none, head :: rest, heap, clock, transmitter⟩

section Head

variable {heap heap' : Heap} {head : QueuedFrame} {clock clock' : κ} {time : Micros}
  (hclock : Clock.read clock = (time, clock'))

include hclock

theorem settle_expired (rest : List QueuedFrame) (transmitter : τ) (hlate : head.deadline < time)
    (hfree : heap.free head.payload = .ok heap') :
    settle heap (head :: rest) clock transmitter =
      (·.after ⟨head, time, .expired⟩) <$> settle heap' rest clock' transmitter := by
  rw [settle, hclock]
  simp only [if_pos hlate, hfree]
  rfl

variable {data : Bytes} {transmitter transmitter' : τ} (hdue : ¬ head.deadline < time)
  (hread : heap.read head.payload = .ok data)

include hdue hread

theorem settle_sent (rest : List QueuedFrame) (hoffer : Transmitter.transmit
      ⟨head.id, data, head.deadline⟩ transmitter = (true, transmitter'))
    (hfree : heap.free head.payload = .ok heap') :
    settle heap (head :: rest) clock transmitter =
      (·.after ⟨head, time, .sent data⟩) <$> settle heap' rest clock' transmitter' := by
  rw [settle, hclock]
  simp only [if_neg hdue, hread, bind, Except.bind, hoffer, if_true, hfree]
  rfl

theorem settle_refused (rest : List QueuedFrame) (hoffer : Transmitter.transmit
      ⟨head.id, data, head.deadline⟩ transmitter = (false, transmitter')) :
    settle heap (head :: rest) clock transmitter =
      .ok ⟨[⟨head, time, .refused data⟩], none, head :: rest, heap, clock', transmitter'⟩ := by
  rw [settle, hclock]
  simp only [if_neg hdue, hread, bind, Except.bind, hoffer, Bool.false_eq_true, if_false]
  rfl

end Head

/-- What comes of a queue, looked at by the readings of a clock and with a transmitter. -/
structure Course.Follows (course : Course κ τ) (queue : List QueuedFrame) (clock : κ)
    (transmitter : τ) : Prop where
  queue : queue = (course.looks.filter (·.retires)).map (·.frame) ++ course.waiting
  late : ∀ look ∈ course.looks, look.isExpired = true ↔ look.frame.deadline < look.time
  times : Clock.readings clock (course.looks.length + course.idle.toList.length) =
    (course.looks.map (·.time) ++ course.idle.toList, course.clock)
  offers : Transmitter.answers transmitter ((course.looks.filterMap (·.offer?)).map (·.1)) =
    ((course.looks.filterMap (·.offer?)).map (·.2), course.transmitter)
  /-- Either the queue is found empty and every frame has left it, or the last look was at a head
  that the transmitter refused, and which is still there. -/
  ends : (course.waiting = [] ∧ course.idle.isSome = true ∧
      ∀ look ∈ course.looks, look.retires = true) ∨
    ∃ past last data, course.looks = past ++ [last] ∧ (∀ look ∈ past, look.retires = true) ∧
      last.verdict = .refused data ∧ course.waiting.head? = some last.frame ∧ course.idle = none

theorem Course.Follows.after {course : Course κ τ} {queue : List QueuedFrame} {clock clock' : κ}
    {transmitter transmitter' : τ} {look : Inspection}
    (h : course.Follows queue clock' transmitter') (hretires : look.retires = true)
    (hlate : look.isExpired = true ↔ look.frame.deadline < look.time)
    (hclock : Clock.read clock = (look.time, clock'))
    (hoffer : Transmitter.answers transmitter (look.offer?.toList.map (·.1)) =
      (look.offer?.toList.map (·.2), transmitter')) :
    (course.after look).Follows (look.frame :: queue) clock transmitter where
  queue := by
    rw [Course.after, List.filter_cons_of_pos hretires, List.map_cons, List.cons_append, ← h.queue]
  late := List.forall_mem_cons.mpr ⟨hlate, h.late⟩
  times := by
    have htimes := h.times
    simp only [Course.after, List.length_cons, Nat.add_right_comm _ 1, Clock.readings, hclock,
      htimes, List.map_cons, List.cons_append]
  offers := by
    have hoffers := h.offers
    cases hlook : look.offer? with
    | none =>
        rw [hlook] at hoffer
        cases hoffer
        simpa [Course.after, hlook] using hoffers
    | some offer =>
        rw [hlook] at hoffer
        simp only [Option.toList_some, List.map_cons, List.map_nil, Transmitter.answers,
          Prod.mk.injEq, List.cons.injEq, and_true] at hoffer
        simp only [Course.after, List.filterMap_cons, hlook, List.map_cons, Transmitter.answers,
          hoffer.1, hoffer.2, hoffers]
  ends := by
    obtain ⟨hwaiting, hidle, hlooks⟩ | ⟨past, last, data, hlooks, hpast, hlast⟩ := h.ends
    · exact .inl ⟨hwaiting, hidle, List.forall_mem_cons.mpr ⟨hretires, hlooks⟩⟩
    · refine .inr ⟨look :: past, last, data, congrArg (List.cons look) hlooks,
        List.forall_mem_cons.mpr ⟨hretires, hpast⟩, hlast⟩

theorem follows_of_settle {heap : Heap} {queue : List QueuedFrame} {clock : κ} {transmitter : τ}
    {course : Course κ τ} (h : settle heap queue clock transmitter = .ok course) :
    course.Follows queue clock transmitter := by
  induction queue generalizing heap clock transmitter course with
  | nil =>
      cases h
      exact ⟨rfl, by simp, rfl, rfl, .inl ⟨rfl, rfl, by simp⟩⟩
  | cons head rest ih =>
      unfold settle at h
      rcases hclock : Clock.read clock with ⟨time, clock'⟩
      simp only [hclock] at h
      split at h
      · next hlate =>
          obtain ⟨freed, -, h⟩ := Fault.bind_eq_ok h
          obtain ⟨others, hothers, h⟩ := Fault.bind_eq_ok h
          cases h
          exact (ih hothers).after rfl (iff_of_true rfl hlate) hclock rfl
      next hdue =>
      obtain ⟨data, -, h⟩ := Fault.bind_eq_ok h
      rcases hoffer : Transmitter.transmit ⟨head.id, data, head.deadline⟩ transmitter with
        ⟨_ | _, transmitter'⟩
      · simp only [hoffer] at h
        cases h
        refine ⟨rfl, ?_, ?_, ?_, .inr ⟨[], _, data, rfl, by simp, rfl, rfl, rfl⟩⟩
        · simpa [Inspection.isExpired] using UInt64.not_lt.mp hdue
        · simp [Clock.readings, hclock]
        · simp [Inspection.offer?, Transmitter.answers, hoffer]
      · simp only [hoffer, if_true] at h
        obtain ⟨freed, -, h⟩ := Fault.bind_eq_ok h
        obtain ⟨others, hothers, h⟩ := Fault.bind_eq_ok h
        cases h
        refine (ih hothers).after rfl (iff_of_false (by simp [Inspection.isExpired]) hdue) hclock ?_
        simp [Inspection.offer?, Transmitter.answers, hoffer]

/-- When the payloads of the queue are live blocks, nothing goes wrong, the transmitter is offered
the bytes that they have at first, and the payloads of what is left are live in the end. -/
theorem exists_settle {arena : Arena} {heap : Heap} {queue : List QueuedFrame}
    {others : List Block} (h : Ledger.Holds arena ⟨heap, payloads queue ++ others⟩) (clock : κ)
    (transmitter : τ) :
    ∃ course, settle heap queue clock transmitter = .ok course ∧
      (∀ look ∈ course.looks, look.frame ∈ queue ∧ ∀ offer ∈ look.offer?,
        heap.read look.frame.payload = .ok offer.1.data) ∧
      Ledger.Holds arena ⟨course.heap, payloads course.waiting ++ others⟩ := by
  induction queue generalizing heap clock transmitter with
  | nil => exact ⟨_, rfl, by simp, h⟩
  | cons head rest ih =>
      obtain ⟨freed, hfree, hholds, hreads⟩ := h.free
      rcases hclock : Clock.read clock with ⟨time, clock'⟩
      -- what is read after the head was freed was there before
      have hbefore : ∀ {course : Course κ τ}, (∀ look ∈ course.looks, look.frame ∈ rest ∧
          ∀ offer ∈ look.offer?, freed.read look.frame.payload = .ok offer.1.data) →
          ∀ look ∈ course.looks, look.frame ∈ head :: rest ∧ ∀ offer ∈ look.offer?,
            heap.read look.frame.payload = .ok offer.1.data := by
        intro course hlooks look hlook
        obtain ⟨hframe, hdata⟩ := hlooks look hlook
        refine ⟨List.mem_cons_of_mem head hframe, fun offer hoffer => ?_⟩
        rw [← hreads _ (List.mem_append_left others (List.mem_map_of_mem hframe))]
        exact hdata offer hoffer
      by_cases hlate : head.deadline < time
      · obtain ⟨course, hcourse, hlooks, hlast⟩ := ih hholds clock' transmitter
        refine ⟨course.after ⟨head, time, .expired⟩, ?_, List.forall_mem_cons.mpr
          ⟨⟨List.mem_cons_self, by simp [Inspection.offer?]⟩, hbefore hlooks⟩, hlast⟩
        rw [settle_expired hclock rest transmitter hlate hfree, hcourse]
        rfl
      have hhead : head.payload ∈ payloads (head :: rest) ++ others := List.mem_cons_self
      obtain ⟨data, hread⟩ := h.exists_read hhead
      rcases hoffer : Transmitter.transmit ⟨head.id, data, head.deadline⟩ transmitter with
        ⟨_ | _, transmitter'⟩
      · exact ⟨_, settle_refused hclock hlate hread rest hoffer, List.forall_mem_cons.mpr
          ⟨⟨List.mem_cons_self, by simpa [Inspection.offer?] using hread⟩, by simp⟩, h⟩
      · obtain ⟨course, hcourse, hlooks, hlast⟩ := ih hholds clock' transmitter'
        refine ⟨course.after ⟨head, time, .sent data⟩, ?_, List.forall_mem_cons.mpr
          ⟨⟨List.mem_cons_self, by simpa [Inspection.offer?] using hread⟩, hbefore hlooks⟩, hlast⟩
        rw [settle_sent hclock hlate hread rest hoffer hfree, hcourse]
        rfl

end Settle

section Phase

variable [Engine σ]

/-- The engine after `count` frames were popped. -/
def popped (engine : σ) (count : Nat) : σ :=
  (fun engine => (Engine.pop engine).2)^[count] engine

/-- The node after its engine's queue took a course.  Each frame that left the queue was popped,
and was counted as expired or as sent. -/
def settled (node : Node σ κ ρ α) (course : Course κ τ) : Node σ κ ρ α :=
  { node with
    heap := course.heap
    engine := popped node.engine (course.looks.countP (·.retires))
    clock := course.clock
    stats := { node.stats with
      sent := node.stats.sent + .ofNat (course.looks.countP (·.isSent))
      expired := node.stats.expired + .ofNat (course.looks.countP (·.isExpired)) } }

/-- A look that makes a frame leave the queue comes before the others. -/
theorem settled_after {node : Node σ κ ρ α} {course : Course κ τ} {look : Inspection}
    {engine : σ} {answer : Option QueuedFrame} (hpop : Engine.pop node.engine = (answer, engine))
    (hretires : look.retires = true) (clock : κ) (heap : Heap) :
    node.settled (course.after look) =
      settled { node with
        clock, engine, heap
        stats := { node.stats with
          sent := node.stats.sent + .ofNat look.isSent.toNat
          expired := node.stats.expired + .ofNat look.isExpired.toNat } } course := by
  have hcount (p : Inspection → Bool) (rest : List Inspection) :
      (look :: rest).countP p = (p look).toNat + rest.countP p := by
    rw [List.countP_cons, Nat.add_comm]
    cases p look <;> rfl
  simp only [settled, Course.after, hcount, hretires, Bool.toNat_true, UInt32.ofNat_add,
    UInt32.add_assoc, popped, Nat.add_comm 1, Function.iterate_succ_apply, hpop]

section Queues

variable [Clock κ] [Transmitter τ] {queue : σ → List QueuedFrame} (hqueues : Engine.Queues queue)

include hqueues

theorem queue_popped (engine : σ) (count : Nat) :
    queue (popped engine count) = (queue engine).drop count := by
  induction count generalizing engine with
  | zero => rfl
  | succ count ih =>
      rw [popped, Function.iterate_succ_apply]
      exact (ih _).trans (by rw [hqueues.rest, List.drop_tail])

/-- What waits after the course is what waits in the engine. -/
theorem queue_settled {node : Node σ κ ρ α} {course : Course κ τ} {clock : κ} {transmitter : τ}
    (h : course.Follows (queue node.engine) clock transmitter) :
    queue (node.settled course).engine = course.waiting := by
  have hfront : ((course.looks.filter (·.retires)).map (·.frame)).length =
      course.looks.countP (·.retires) := by
    rw [List.length_map, List.countP_eq_length_filter]
  rw [settled, queue_popped hqueues, h.queue, List.drop_left' hfront]

/-- Either the drain ends at the head as going through the queue does, or the head leaves the queue
and the rest of it is left to both. -/
theorem drain_head {node : Node σ κ ρ α} {head : QueuedFrame} {rest : List QueuedFrame}
    (hframes : queue node.engine = head :: rest) (transmitter : τ) :
    (∀ budget, node.drain transmitter (budget + 1) =
      (fun course => (node.settled course, course.transmitter)) <$>
        settle node.heap (head :: rest) node.clock transmitter) ∨
    ∃ look, ∃ next : Node σ κ ρ α, ∃ final, queue next.engine = rest ∧
      (∀ budget, node.drain transmitter (budget + 1) = next.drain final budget) ∧
      settle node.heap (head :: rest) node.clock transmitter =
        (·.after look) <$> settle next.heap rest next.clock final ∧
      ∀ course : Course κ τ, node.settled (course.after look) = next.settled course := by
  have hpeek := hqueues.peek node.engine
  have hhead := hqueues.pop node.engine
  have hrest := hqueues.rest node.engine
  rcases hpop : Engine.pop node.engine with ⟨answer, engine⟩
  rw [hpop, hframes] at hhead hrest
  rw [hframes] at hpeek
  obtain rfl : answer = some head := hhead
  rcases hclock : Clock.read node.clock with ⟨time, clock⟩
  by_cases hlate : head.deadline < time
  · cases hfree : node.heap.free head.payload with
    | error fault =>
        refine .inl fun budget => ?_
        simp [drain, now, settle, hclock, hpeek, hlate, retireHead, hpop, hfree, bind,
          Except.bind, Functor.map, Except.map]
    | ok heap =>
        have hlook : node.Looks transmitter _ true _ transmitter :=
          .expired hclock hpeek hlate hpop hfree
        refine .inr ⟨_, _, _, hrest, hlook.drain_succ,
          settle_expired hclock rest transmitter hlate hfree, fun course => ?_⟩
        rw [settled_after hpop rfl clock heap]
        simp [Inspection.isSent, Inspection.offer?, Inspection.isExpired]
  cases hread : node.heap.read head.payload with
  | error fault =>
      refine .inl fun budget => ?_
      simp [drain, now, settle, hclock, hpeek, hlate, hread, bind, Except.bind, Functor.map,
        Except.map]
  | ok data =>
  rcases hoffer : Transmitter.transmit ⟨head.id, data, head.deadline⟩ transmitter with
    ⟨_ | _, transmitter'⟩
  · have hlook : node.Looks transmitter _ false _ transmitter' :=
      .refused hclock hpeek hlate hread hoffer
    refine .inl fun budget => ?_
    rw [hlook.drain_succ, settle_refused hclock hlate hread rest hoffer]
    simp [settled, popped, Inspection.retires, Inspection.isSent, Inspection.offer?,
      Inspection.isExpired]
  cases hfree : node.heap.free head.payload with
  | error fault =>
      refine .inl fun budget => ?_
      simp [drain, now, settle, hclock, hpeek, hlate, hread, hoffer, retireHead, hpop, hfree,
        bind, Except.bind, Functor.map, Except.map]
  | ok heap =>
      have hlook : node.Looks transmitter _ true _ transmitter' :=
        .sent hclock hpeek hlate hread hoffer hpop hfree
      refine .inr ⟨_, _, _, hrest, hlook.drain_succ,
        settle_sent hclock hlate hread rest hoffer hfree, fun course => ?_⟩
      rw [settled_after hpop rfl clock heap]
      simp [Inspection.isSent, Inspection.offer?, Inspection.isExpired]

/-- Draining an engine's queue is going through the sequence, if there are looks enough. -/
theorem drain_eq_settle {node : Node σ κ ρ α} {transmitter : τ} {frames : List QueuedFrame}
    {budget : Nat} (hframes : queue node.engine = frames) (hbudget : frames.length < budget) :
    node.drain transmitter budget =
      (fun course => (node.settled course, course.transmitter)) <$>
        settle node.heap frames node.clock transmitter := by
  obtain ⟨budget, rfl⟩ := Nat.exists_eq_succ_of_ne_zero (Nat.ne_zero_of_lt hbudget)
  induction frames generalizing node transmitter budget with
  | nil =>
      have hpeek := hqueues.peek node.engine
      rw [hframes] at hpeek
      simp [drain, now, settle, hpeek, settled, popped]
  | cons head rest ih =>
      obtain hends | ⟨look, next, final, hrest, hdrain, hsettle, hsettled⟩ :=
        drain_head hqueues hframes transmitter
      · exact hends budget
      obtain ⟨budget, rfl⟩ := Nat.exists_eq_succ_of_ne_zero (Nat.ne_zero_of_lt
        (Nat.lt_of_succ_lt_succ hbudget))
      rw [hdrain, ih hrest budget (Nat.lt_of_succ_lt_succ hbudget), hsettle, ← comp_map]
      exact congrArg (· <$> settle next.heap rest next.clock final)
        (funext fun course => congrArg (·, course.transmitter) (hsettled course).symm)

end Queues

/-! Of other engines less is known, but for where the phase ends when no frame is handed out. -/

variable [Clock κ] [Transmitter τ] {node last : Node σ κ ρ α} {transmitter middle : τ} {count : Nat}

theorem Passes.drain_eq {events : List (Event ρ)} {next : Node σ κ ρ α} {final : τ} {budget : Nat}
    (h : node.Passes transmitter count last middle)
    (hlook : last.Looks middle events false next final) (hbudget : count < budget) :
    node.drain transmitter budget = .ok (next, final) := by
  obtain ⟨rest, rfl⟩ := Nat.exists_eq_add_of_lt hbudget
  rw [Nat.add_assoc, h.drain_add, hlook.drain_succ]
  rfl

end Phase

/-- With an engine whose queue is a finite sequence, the transmit phase ends, and it does to the
sequence what `settle` does, with the same fault if there is one.  There is none when the payloads
of the queue are live blocks; the transmitter is then offered the bytes that they had at first.

With any engine at all, when a head is shown and not handed out, because it is late or after the
transmitter accepted it, the phase ends there, whatever number of looks is left: neither the heap
nor a counter changes any more. -/
theorem transmitPhase_settles [Clock κ] [Transmitter τ] :
    (∀ {σ : Type} [Engine σ] {queue : σ → List QueuedFrame}, Engine.Queues queue →
      ∀ (node : Node σ κ ρ α) (transmitter : τ),
        node.transmitPhase transmitter =
          (fun course => (node.settled course, course.transmitter)) <$>
            settle node.heap (queue node.engine) node.clock transmitter ∧
        (∀ course, settle node.heap (queue node.engine) node.clock transmitter = .ok course →
          course.Follows (queue node.engine) node.clock transmitter ∧
            queue (node.settled course).engine = course.waiting) ∧
        ∀ arena others,
          Ledger.Holds arena ⟨node.heap, payloads (queue node.engine) ++ others⟩ →
          ∃ course, settle node.heap (queue node.engine) node.clock transmitter = .ok course ∧
            (∀ look ∈ course.looks, look.frame ∈ queue node.engine ∧ ∀ offer ∈ look.offer?,
              node.heap.read look.frame.payload = .ok offer.1.data) ∧
            Ledger.Holds arena ⟨course.heap, payloads course.waiting ++ others⟩) ∧
    ∀ {σ : Type} [Engine σ] (node last : Node σ κ ρ α) (transmitter middle : τ) (count : Nat),
      node.Passes transmitter count last middle →
      ∀ head engine time clock, Engine.peek last.engine = some head →
        Engine.pop last.engine = (none, engine) → Clock.read last.clock = (time, clock) →
        (head.deadline < time → ∀ budget, count < budget →
          node.drain transmitter budget = .ok ({ last with clock, engine }, middle)) ∧
        (¬ head.deadline < time → ∀ data final, last.heap.read head.payload = .ok data →
          Transmitter.transmit ⟨head.id, data, head.deadline⟩ middle = (true, final) →
          ∀ budget, count < budget →
            node.drain transmitter budget = .ok ({ last with clock, engine }, final)) := by
  refine ⟨fun {σ} _ {queue} hqueues node transmitter => ⟨?_, fun course hcourse => ?_,
    fun arena others hholds => exists_settle hholds node.clock transmitter⟩,
    fun {σ} _ node last transmitter middle count hpasses head engine time clock hpeek hpop hclock =>
      ⟨fun hlate budget hbudget => ?_, fun hdue data final hread hoffer budget hbudget => ?_⟩⟩
  · have hbudget : (queue node.engine).length < Engine.pending node.engine + 1 := by
      rw [hqueues.pending]
      exact Nat.lt_succ_self _
    exact drain_eq_settle hqueues rfl hbudget
  · have hfollows := follows_of_settle hcourse
    exact ⟨hfollows, queue_settled hqueues hfollows⟩
  · exact hpasses.drain_eq (.expiredKept hclock hpeek hlate hpop) hbudget
  · exact hpasses.drain_eq (.sentKept hclock hpeek hdue hread hoffer hpop) hbudget

/-- An engine that hands out some frames, and then shows one more that it never hands out. -/
structure Reluctant where
  frames : List QueuedFrame
  kept : QueuedFrame

instance : Engine Reluctant where
  configure _ engine := engine
  accept _ engine heap := .ok (.rejected, engine, heap)
  subscribe _ _ engine := (.ok (), engine)
  unsubscribe _ engine heap := .ok (false, engine, heap)
  push _ _ _ engine heap := .ok (.error .queueFull, engine, heap)
  peek engine := some (engine.frames.headD engine.kept)
  pop engine := (engine.frames.head?, { engine with frames := engine.frames.tail })
  pending engine := engine.frames.length + 1

def sampleFrames : List (Call Recorder ScriptedTransmitter) :=
  let metadata := Metadata.message (.ofNat 100) default
  [.enqueue 1000 metadata [1, 2, 3], .enqueue 5 metadata [4], .enqueue 1000 metadata [5, 6]]

private theorem holds_of_scripted {times : List Micros}
    {calls : List (Call Recorder ScriptedTransmitter)} {node last : ScriptedNode}
    (hstart : ScriptedNode.start times = .ok node)
    (hrun : node.run calls = .ok last) :
    Ledger.Holds (Arena.filled 256 0xAA) ⟨last.heap, payloads last.engine.queue⟩ := by
  obtain ⟨heap, hformat, rfl⟩ := start_eq_ok hstart
  obtain ⟨history, hhistory⟩ := exists_runs_of_run hrun
  have hholds : Ledger.Holds (Arena.filled 256 0xAA) ⟨heap, []⟩ := .of_format hformat
  exact (hhistory.steps.follows TailByteEngine.frugal hholds).holds hholds

private def blockLedger : Ledger :=
  (Ledger.replay (Arena.filled 96 0xAA) [.allocate 4, .allocate 4]).get (by decide +kernel)

private def reluctantNode (heap : Heap) :
    Node Reluctant ScriptedClock Recorder (List (Nat × Bytes)) where
  heap
  engine := ⟨[⟨10, ⟨1⟩, ⟨0, 4⟩⟩], ⟨5, ⟨2⟩, ⟨32, 4⟩⟩⟩
  clock := ⟨[3, 7]⟩
  shared := ⟨ReceiveQueue.empty 1 .classic, []⟩
  registry := Registry.empty 1
  config := {}
  stats := {}

/-- Of three frames one is sent, one expires and one is refused.  An engine hands out a frame, which
is sent, and keeps the next one, which has expired. -/
theorem transmitPhase_settles_sample :
    (∃ (node : ScriptedNode) (course : Course ScriptedClock ScriptedTransmitter),
      Engine.Queues TailByteEngine.queue ∧
      Ledger.Holds (Arena.filled 256 0xAA) ⟨node.heap, payloads node.engine.queue ++ []⟩ ∧
      node.transmitPhase (⟨[true, false]⟩ : ScriptedTransmitter) =
        .ok (node.settled course, course.transmitter) ∧
      course.Follows node.engine.queue node.clock ⟨[true, false]⟩ ∧
      course.looks.map (·.retires) = [true, true, false]) ∧
    ∃ heap last, (reluctantNode heap).Passes (⟨[true]⟩ : ScriptedTransmitter) 1 last ⟨[]⟩ ∧
      Engine.peek last.engine = some ⟨5, ⟨2⟩, ⟨32, 4⟩⟩ ∧
      Engine.pop last.engine = (none, last.engine) ∧ last.stats.sent = 1 ∧
      (reluctantNode heap).transmitPhase (⟨[true]⟩ : ScriptedTransmitter) =
        .ok ({ last with clock := ⟨[]⟩ }, ⟨[]⟩) := by
  obtain ⟨hsequence, hany⟩ := transmitPhase_settles (κ := ScriptedClock) (ρ := Recorder)
    (α := List (Nat × Bytes)) (τ := ScriptedTransmitter)
  constructor
  · have hsample : (ScriptedNode.rehearse [0, 0, 0, 5, 6, 7] sampleFrames).any (fun node =>
        (settle node.heap node.engine.queue node.clock
          (⟨[true, false]⟩ : ScriptedTransmitter)).toOption.any fun course =>
            course.looks.map (·.retires) == [true, true, false]) = true := by
      decide +kernel
    obtain ⟨first, node, hstart, hrun, hnode⟩ := ScriptedNode.exists_run_of_rehearse hsample
    have hholds := holds_of_scripted hstart hrun
    rw [← List.append_nil (payloads node.engine.queue)] at hholds
    obtain ⟨hphase, hfollows, hcourse⟩ := hsequence TailByteEngine.queues node ⟨[true, false]⟩
    obtain ⟨course, hcourse, -⟩ := hcourse _ _ hholds
    rw [hcourse] at hphase hnode
    exact ⟨node, course, TailByteEngine.queues, hholds, hphase, (hfollows course hcourse).1,
      eq_of_beq hnode⟩
  · obtain ⟨ledger, hreachable, hlive⟩ : ∃ ledger,
        Ledger.Reachable (Arena.filled 96 0xAA) ledger ∧ ⟨0, 4⟩ ∈ ledger.live :=
      ⟨blockLedger, Ledger.reachable_replay _, by decide +kernel⟩
    obtain ⟨⟨fragments, chains, hsound⟩, -⟩ := hreachable.sound
    obtain ⟨heap, hfree, -⟩ := hsound.free hlive
    have hdue : ¬ (10 : Micros) < 3 := by decide
    have hlate : (5 : Micros) < 7 := by decide
    have hlook : (reluctantNode ledger.heap).Looks (⟨[true]⟩ : ScriptedTransmitter) _ true _ ⟨[]⟩ :=
      .sent rfl rfl hdue (hsound.read_eq hlive) rfl rfl hfree
    have hpasses := Passes.cons hlook .nil
    refine ⟨ledger.heap, _, hpasses, rfl, rfl, rfl, ?_⟩
    exact (hany _ _ _ _ 1 hpasses _ _ _ _ rfl rfl rfl).1 hlate 3 (by decide)

end Node

end CanNode
