import CanNode.ReceiveQueue
import Mathlib.Algebra.Group.Nat.Defs
import Mathlib.Data.List.Forall2

/-!
# Receive queues are first in, first out

Producers hand frames to a queue in several ways, and a consumer takes them.  `Call.Hands` says
which frame a call hands in, and `Performs` what a call can do to a queue.  `ReceiveQueue.fifo`
says that after any calls the frames that were accepted are those that were returned, followed by
those that wait, and that `dropped` counts the calls that were refused.
-/

namespace CanNode

/-- A frame off the bus, as it is stored for a frame width. -/
structure ReceivedFrame.Stores (frame : ReceivedFrame) (mtu : Mtu) (raw : Nat) (bytes : Bytes)
    (time : Micros) : Prop where
  id : frame.id.toNat = raw
  extended : raw < Identifier.count
  mtu : frame.data.mtu = mtu
  data : frame.data.bytes = bytes
  timestamp : frame.timestamp = time

theorem ReceivedFrame.ofRaw_eq_ok_iff {mtu : Mtu} {id : UInt32} {data : Bytes}
    {timestamp : Micros} {frame : ReceivedFrame} :
    ofRaw mtu id data timestamp = .ok frame ↔ frame.Stores mtu id.toNat data timestamp := by
  constructor
  · intro h
    unfold ofRaw DataField.ofBytes at h
    split at h
    · next hextended =>
        split at h
        · cases h
          exact ⟨rfl, of_decide_eq_true hextended, rfl, rfl, rfl⟩
        · cases h
    · cases h
  · obtain ⟨⟨raw⟩, ⟨width, bytes, hfits⟩, time⟩ := frame
    rintro ⟨hid, hextended, rfl, rfl, rfl⟩
    obtain rfl : raw = id := UInt32.toNat_inj.mp hid
    have hvalid : (Identifier.mk raw).isExtended = true := decide_eq_true hextended
    simp [ofRaw, DataField.ofBytes, hvalid, hfits, bind, Except.bind, pure, Except.pure]

namespace ReceiveQueue

inductive Call : Type 1 where
  | receive (id : UInt32) (data : Bytes) (timestamp : Micros)
  | enqueue (frame : ReceivedFrame)
  | receiveBusFrame {φ : Type} [BusFrame φ] (frame : φ) (timestamp : Micros)
  | dequeue
  | nodeReceive (id : UInt32) (data : Bytes) (timestamp : Micros)
  | nodeDequeue

inductive Answer where
  | offered (answer : Except ReceiveError Unit)
  | taken (answer : Except ReceiveError ReceivedFrame)

abbrev Event := Call × Answer

def perform (queue : ReceiveQueue) : Call → Answer × ReceiveQueue
  | .receive raw data timestamp => (queue.receive raw data timestamp).map .offered id
  | .enqueue frame => (queue.enqueue frame).map .offered id
  | @Call.receiveBusFrame _ _ frame timestamp =>
      (queue.receiveBusFrame frame timestamp).map .offered id
  | .dequeue => queue.dequeue.map .taken id
  | .nodeReceive raw data timestamp =>
      (FrameQueue.receive queue raw data timestamp).map .offered id
  | .nodeDequeue => (FrameQueue.dequeue queue).map .taken id

def run (queue : ReceiveQueue) : List Call → List Event × ReceiveQueue
  | [] => ([], queue)
  | call :: rest =>
      let (answer, next) := queue.perform call
      let (history, last) := next.run rest
      ((call, answer) :: history, last)

/-- The frame that a call hands in.  A frame that cannot be stored is none. -/
def Call.Hands (mtu : Mtu) : Call → ReceivedFrame → Prop
  | .receive id data timestamp, frame => frame.Stores mtu id.toNat data timestamp
  | .enqueue handed, frame => handed = frame ∧ handed.data.mtu = mtu
  | @Call.receiveBusFrame _ _ driver timestamp, frame =>
      BusFrame.isRemote driver = false ∧ ∃ id, BusFrame.id driver = .extended id ∧
        frame.Stores mtu id (BusFrame.data driver) timestamp
  | .nodeReceive id data timestamp, frame => frame.Stores mtu id.toNat data timestamp
  | .dequeue, _ => False
  | .nodeDequeue, _ => False

namespace Event

def accepted? : Event → Option Call
  | (call, .offered (.ok ())) => some call
  | _ => none

def returned? : Event → Option ReceivedFrame
  | (_, .taken (.ok frame)) => some frame
  | _ => none

def isRefusal : Event → Bool
  | (_, .offered (.error _)) => true
  | _ => false

end Event

/-! ## What a call can do -/

theorem length_concat_le {queue : ReceiveQueue} (hroom : queue.length < queue.capacity)
    (frame : ReceivedFrame) : (queue.frames ++ [frame]).length ≤ queue.capacity := by
  rw [List.length_append]
  exact hroom

/-- A frame is handed in, or something that cannot be stored. -/
inductive Takes (queue : ReceiveQueue) (handed : ReceivedFrame → Prop) :
    Except ReceiveError Unit × ReceiveQueue → Prop where
  | accepted {frame next} (hhanded : handed frame) (hroom : queue.length < queue.capacity)
      (hnext : next = { queue with
        frames := queue.frames ++ [frame]
        bounded := length_concat_le hroom frame }) :
      Takes queue handed (.ok (), next)
  | refused {error} (hreason : (∀ frame, ¬ handed frame) ∨ queue.length = queue.capacity) :
      Takes queue handed (queue.drop error)

inductive Performs (queue : ReceiveQueue) (call : Call) : Answer × ReceiveQueue → Prop where
  | offered {result} (htakes : queue.Takes (call.Hands queue.mtu) result) :
      Performs queue call (result.map .offered id)
  | returned {frame} (hnone : ∀ handed, ¬ call.Hands queue.mtu handed)
      (hhead : queue.frames.head? = some frame) :
      Performs queue call (.taken (.ok frame), queue.tail)
  | dry (hnone : ∀ handed, ¬ call.Hands queue.mtu handed) (hempty : queue.frames = []) :
      Performs queue call (.taken (.error .emptyBuffer), queue)

theorem takes_enqueue (queue : ReceiveQueue) (frame : ReceivedFrame) :
    queue.Takes (fun handed => frame = handed ∧ frame.data.mtu = queue.mtu)
      (queue.enqueue frame) := by
  unfold enqueue
  split
  · next hmtu => exact .refused (.inl fun handed hhanded => hmtu hhanded.2)
  next hmtu =>
  have hmtu : frame.data.mtu = queue.mtu := Decidable.not_not.mp hmtu
  have hfits : ¬ queue.mtu.bytes < frame.data.bytes.length := by
    rw [← hmtu]
    exact Nat.not_lt.mpr frame.data.fits
  rw [if_neg hfits]
  split
  · next hroom => exact .accepted ⟨rfl, hmtu⟩ hroom rfl
  · next hfull => exact .refused (.inr (Nat.le_antisymm queue.bounded (Nat.not_lt.mp hfull)))

theorem takes_receive (queue : ReceiveQueue) (id : UInt32) (data : Bytes) (timestamp : Micros) :
    queue.Takes (·.Stores queue.mtu id.toNat data timestamp)
      (queue.receive id data timestamp) := by
  unfold receive
  cases hraw : ReceivedFrame.ofRaw queue.mtu id data timestamp with
  | error error =>
      refine .refused (.inl fun frame hstores => ?_)
      cases hraw.symm.trans (ReceivedFrame.ofRaw_eq_ok_iff.mpr hstores)
  | ok frame =>
      have hstores := ReceivedFrame.ofRaw_eq_ok_iff.mp hraw
      have htakes := queue.takes_enqueue frame
      simp only at htakes ⊢
      generalize queue.enqueue frame = result at htakes
      cases htakes with
      | accepted hhanded hroom hnext =>
          obtain ⟨rfl, -⟩ := hhanded
          exact .accepted hstores hroom hnext
      | refused hreason =>
          refine .refused (hreason.imp_left fun hnone => ?_)
          exact absurd ⟨rfl, hstores.mtu⟩ (hnone frame)

theorem takes_receiveBusFrame {φ : Type} [BusFrame φ] (queue : ReceiveQueue) (frame : φ)
    (timestamp : Micros) :
    queue.Takes ((Call.receiveBusFrame frame timestamp).Hands queue.mtu)
      (queue.receiveBusFrame frame timestamp) := by
  unfold receiveBusFrame
  split
  next id hid =>
    split
    · next hremote =>
        refine .refused (.inl fun stored hhands => ?_)
        cases hremote.symm.trans hhands.1
    · next hremote =>
        have htoNat : (UInt32.ofNat id).toNat = id := by
          rw [UInt32.toNat_ofNat']
          exact Nat.mod_eq_of_lt (Nat.lt_trans id.isLt (by decide))
        have hhands : (Call.receiveBusFrame frame timestamp).Hands queue.mtu =
            (·.Stores queue.mtu (UInt32.ofNat id).toNat (BusFrame.data frame) timestamp) := by
          funext stored
          simp [Call.Hands, hid, hremote, htoNat]
        rw [hhands]
        exact queue.takes_receive _ _ _
  next id hid =>
    refine .refused (.inl fun stored hhands => ?_)
    obtain ⟨-, other, hother, -⟩ := hhands
    cases hid.symm.trans hother

theorem performs_dequeue (queue : ReceiveQueue) {call : Call}
    (hnone : ∀ handed, ¬ call.Hands queue.mtu handed) :
    queue.Performs call (queue.dequeue.map .taken id) := by
  unfold dequeue
  cases hhead : queue.frames.head? with
  | none => exact .dry hnone (List.head?_eq_none_iff.mp hhead)
  | some frame => exact .returned hnone hhead

theorem performs_perform (queue : ReceiveQueue) (call : Call) :
    queue.Performs call (queue.perform call) := by
  cases call with
  | receive id data timestamp | nodeReceive id data timestamp =>
      exact .offered (queue.takes_receive id data timestamp)
  | enqueue frame => exact .offered (queue.takes_enqueue frame)
  | receiveBusFrame frame timestamp => exact .offered (queue.takes_receiveBusFrame frame timestamp)
  | dequeue | nodeDequeue => exact queue.performs_dequeue fun handed hhands => hhands

section Calls

variable {queue next : ReceiveQueue} {call : Call} {error : ReceiveError}

/-- A refused call is counted, and leaves everything else as it was. -/
theorem eq_of_perform_refused (h : queue.perform call = (.offered (.error error), next)) :
    next = { queue with dropped := queue.dropped + 1 } := by
  have hperforms := queue.performs_perform call
  rw [h] at hperforms
  generalize hresult : (Answer.offered (.error error), next) = result at hperforms
  cases hperforms with
  | offered htakes =>
      cases htakes with
      | accepted => cases hresult
      | refused =>
          cases hresult
          rfl
  | returned | dry => cases hresult

/-- A frame is accepted when one is handed in and there is room for it. -/
theorem perform_accepts_iff : (∃ next, queue.perform call = (.offered (.ok ()), next)) ↔
    (∃ frame, call.Hands queue.mtu frame) ∧ queue.length < queue.capacity := by
  have hperforms := queue.performs_perform call
  generalize queue.perform call = result at hperforms
  cases hperforms with
  | offered htakes =>
      cases htakes with
      | @accepted frame next hhanded hroom hnext =>
          exact ⟨fun _ => ⟨⟨frame, hhanded⟩, hroom⟩, fun _ => ⟨next, rfl⟩⟩
      | refused hreason =>
          constructor
          · rintro ⟨next, h⟩
            cases h
          · rintro ⟨⟨frame, hhands⟩, hroom⟩
            obtain hnone | hfull := hreason
            · exact absurd hhands (hnone frame)
            · exact absurd hroom (Nat.not_lt.mpr (Nat.le_of_eq hfull.symm))
  | returned hnone | dry hnone =>
      constructor
      · rintro ⟨next, h⟩
        cases h
      · rintro ⟨⟨frame, hhands⟩, -⟩
        exact absurd hhands (hnone frame)

theorem dequeue_eq_error_iff : queue.dequeue = (.error error, next) ↔
    queue.length = 0 ∧ error = .emptyBuffer ∧ next = queue := by
  unfold dequeue length
  cases hhead : queue.frames.head? with
  | none =>
      rw [List.head?_eq_none_iff.mp hhead]
      constructor
      · intro h
        cases h
        exact ⟨rfl, rfl, rfl⟩
      · rintro ⟨-, rfl, rfl⟩
        rfl
  | some frame =>
      obtain ⟨rest, hframes⟩ := List.head?_eq_some_iff.mp hhead
      simp [hframes]

theorem dequeue_of_cons {frame : ReceivedFrame} {rest : List ReceivedFrame}
    (h : queue.frames = frame :: rest) : queue.dequeue = (.ok frame, queue.tail) := by
  rw [dequeue, h, List.head?_cons]

end Calls

theorem isEmpty_view (queue : ReceiveQueue) : FrameQueue.isEmpty queue = queue.isEmpty := by
  show (queue.frames.length == 0) = queue.frames.isEmpty
  cases queue.frames <;> rfl

/-! ## Runs -/

/-- What a history makes of a queue. -/
structure Serves (first : ReceiveQueue) (history : List Event) (last : ReceiveQueue) : Prop where
  mtu : last.mtu = first.mtu
  capacity : last.capacity = first.capacity
  dropped : last.dropped = first.dropped + UInt32.ofNat (history.countP Event.isRefusal)
  frames : ∃ stored,
    List.Forall₂ (Call.Hands first.mtu) (history.filterMap Event.accepted?) stored ∧
      first.frames ++ stored = history.filterMap Event.returned? ++ last.frames

theorem Performs.serves_cons {first middle last : ReceiveQueue} {call : Call} {answer : Answer}
    {history : List Event} (hfirst : first.Performs call (answer, middle))
    (hrest : middle.Serves history last) : first.Serves ((call, answer) :: history) last := by
  obtain ⟨hmtu, hcapacity, hdropped, stored, hstored, hframes⟩ := hrest
  generalize hresult : (answer, middle) = result at hfirst
  cases hfirst with
  | offered htakes =>
      cases htakes with
      | @accepted frame next hhanded hroom hnext =>
          cases hnext
          cases hresult
          refine ⟨hmtu, hcapacity, hdropped, frame :: stored, .cons hhanded hstored, ?_⟩
          rw [List.append_cons]
          exact hframes
      | refused =>
          cases hresult
          refine ⟨hmtu, hcapacity, ?_, stored, hstored, hframes⟩
          rw [hdropped, List.countP_cons_of_pos (by rfl), UInt32.ofNat_add]
          simp only [id_eq, UInt32.add_assoc]
          exact congrArg _ (UInt32.add_comm _ _)
  | @returned frame hnone hhead =>
      cases hresult
      obtain ⟨rest, hcons⟩ := List.head?_eq_some_iff.mp hhead
      refine ⟨hmtu, hcapacity, hdropped, stored, hstored, ?_⟩
      simp only [tail, hcons, List.tail_cons] at hframes
      rw [hcons]
      exact congrArg (List.cons frame) hframes
  | dry =>
      cases hresult
      exact ⟨hmtu, hcapacity, hdropped, stored, hstored, hframes⟩

theorem serves_run (queue : ReceiveQueue) (calls : List Call) :
    queue.Serves (queue.run calls).1 (queue.run calls).2 := by
  induction calls generalizing queue with
  | nil => exact ⟨rfl, rfl, by simp [run], [], .nil, List.append_nil _⟩
  | cons call rest ih => exact (queue.performs_perform call).serves_cons (ih _)

/-- After any calls, the frames that were accepted are those that were returned and then those that
wait, in this order, as they were handed in; `dropped` counts the refusals.  The next call adds a
frame that can be stored if there is room, and is refused without effect otherwise; only an empty
queue has no frame to return. -/
theorem fifo (capacity : Nat) (mtu : Mtu) (calls : List Call) :
    let history := ((empty capacity mtu).run calls).1
    let queue := ((empty capacity mtu).run calls).2
    List.Forall₂ (Call.Hands mtu) (history.filterMap Event.accepted?)
        (history.filterMap Event.returned? ++ queue.frames) ∧
      (history.filterMap Event.accepted?).length =
        (history.filterMap Event.returned?).length + queue.length ∧
      queue.length ≤ capacity ∧
      (queue.isEmpty = true ↔ queue.length = 0) ∧ (queue.isFull = true ↔ queue.length = capacity) ∧
      FrameQueue.length queue = queue.length ∧ FrameQueue.isEmpty queue = queue.isEmpty ∧
      queue.dropped.toNat = history.countP Event.isRefusal % 2 ^ 32 ∧
      (∀ call error next, queue.perform call = (.offered (.error error), next) →
        next = { queue with dropped := queue.dropped + 1 }) ∧
      (∀ call, (∃ next, queue.perform call = (.offered (.ok ()), next)) ↔
        (∃ frame, call.Hands mtu frame) ∧ queue.length < capacity) ∧
      ∀ call ∈ [Call.dequeue, .nodeDequeue], ∀ error next,
        queue.perform call = (.taken (.error error), next) ↔
          queue.length = 0 ∧ error = .emptyBuffer ∧ next = queue := by
  intro history queue
  obtain ⟨hmtu, hcapacity, hdropped, stored, hstored, hframes⟩ :=
    serves_run (empty capacity mtu) calls
  have hmtu : queue.mtu = mtu := hmtu
  have hcapacity : queue.capacity = capacity := hcapacity
  obtain rfl : stored = history.filterMap Event.returned? ++ queue.frames := hframes
  refine ⟨hstored, ?_, hcapacity ▸ queue.bounded, ?_, ?_, rfl, ?_, ?_,
    fun call error next => eq_of_perform_refused, fun call => ?_, fun call hcall error next => ?_⟩
  · rw [hstored.length_eq, List.length_append]
    rfl
  · simp [isEmpty, length]
  · simp [isFull, hcapacity]
  · exact queue.isEmpty_view
  · have hdropped : queue.dropped = 0 + UInt32.ofNat (history.countP Event.isRefusal) := hdropped
    rw [hdropped, UInt32.zero_add]
    exact UInt32.toNat_ofNat' ..
  · rw [perform_accepts_iff, hmtu, hcapacity]
  · have hperform : queue.perform call = queue.dequeue.map .taken id := by
      obtain rfl | rfl : call = .dequeue ∨ call = .nodeDequeue := by simpa using hcall
      · rfl
      · rfl
    rw [hperform, ← dequeue_eq_error_iff]
    rcases queue.dequeue with ⟨answer, rest⟩
    simp

end ReceiveQueue

end CanNode
