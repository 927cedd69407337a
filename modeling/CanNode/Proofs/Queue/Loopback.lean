import CanNode.Proofs.Queue.Fifo

/-!
# What is sent is what is received

An outgoing frame becomes a frame of a bus driver, and a receive queue takes frames of such a
driver.  The two conversions are inverse to each other: `ReceiveQueue.receives_sent` says that a
frame comes out of a queue with the identifier and the data it was sent with, behind what waited
there before.
-/

namespace CanNode

theorem ReceivedFrame.Stores.unique {frame other : ReceivedFrame} {mtu : Mtu} {raw : Nat}
    {bytes : Bytes} {time : Micros} (h : frame.Stores mtu raw bytes time)
    (h' : other.Stores mtu raw bytes time) : frame = other := by
  have hid := Identifier.toNat_injective (h.id.trans h'.id.symm)
  obtain ⟨-, -, rfl, rfl, rfl⟩ := h
  obtain ⟨-, -, hmtu, hdata, htime⟩ := h'
  obtain ⟨id, ⟨width, data, hfits⟩, timestamp⟩ := frame
  obtain ⟨id', ⟨width', data', hfits'⟩, timestamp'⟩ := other
  cases hid
  cases hmtu
  cases hdata
  cases htime
  rfl

namespace OutgoingFrame

def arrived (frame : OutgoingFrame) (mtu : Mtu) (hfits : frame.data.length ≤ mtu.bytes)
    (timestamp : Micros) : ReceivedFrame :=
  ⟨frame.id, ⟨mtu, frame.data, hfits⟩, timestamp⟩

variable {φ : Type} [BusFrame φ] {limit : Nat} {frame : OutgoingFrame} {sent : φ}

theorem toBusFrame_eq_some_iff : frame.toBusFrame φ = some sent ↔
    ∃ h : frame.id.toNat < Identifier.count,
      BusFrame.make ⟨frame.id.toNat, h⟩ frame.data = some sent := by
  unfold toBusFrame
  split
  · next h => exact ⟨fun hmake => ⟨h, hmake⟩, fun ⟨_, hmake⟩ => hmake⟩
  · next h => exact ⟨nofun, fun ⟨hlt, _⟩ => absurd hlt h⟩

/-- There is no frame for the driver when the identifier or the data is too long. -/
theorem toBusFrame_eq_none_iff (φ : Type) [BusFrame φ] [LawfulBusFrame φ limit] :
    frame.toBusFrame φ = none ↔ 2 ^ 29 ≤ frame.id.toNat ∨ limit < frame.data.length := by
  unfold toBusFrame
  split
  · next h =>
      have hmake := LawfulBusFrame.isSome_make (φ := φ) ⟨frame.id.toNat, h⟩ frame.data
      rw [← Option.not_isSome_iff_eq_none, hmake, Nat.not_le]
      exact (or_iff_right (Nat.not_le.mpr h)).symm
  · next h => exact iff_of_true rfl (.inl (Nat.not_lt.mp h))

theorem hands_sent [LawfulBusFrame φ limit] (h : frame.toBusFrame φ = some sent) {mtu : Mtu}
    (hfits : frame.data.length ≤ mtu.bytes) (timestamp : Micros) {stored : ReceivedFrame} :
    (ReceiveQueue.Call.receiveBusFrame sent timestamp).Hands mtu stored ↔
      stored = frame.arrived mtu hfits timestamp := by
  obtain ⟨hextended, hmake⟩ := toBusFrame_eq_some_iff.mp h
  have hid := LawfulBusFrame.id_make hmake
  have hdata := LawfulBusFrame.data_make hmake
  have harrived : (frame.arrived mtu hfits timestamp).Stores mtu frame.id.toNat
      (BusFrame.data sent) timestamp := ⟨rfl, hextended, rfl, hdata.symm, rfl⟩
  constructor
  · rintro ⟨-, id, hother, hstores⟩
    cases hid.symm.trans hother
    exact hstores.unique harrived
  · rintro rfl
    exact ⟨LawfulBusFrame.isRemote_make hmake, _, hid, harrived⟩

end OutgoingFrame

namespace ReceiveQueue

variable {queue first last : ReceiveQueue} {waiting : List ReceivedFrame} {history : List Event}
  {frame : ReceivedFrame}

/-- A queue with room takes what it is handed. -/
theorem Takes.eq_of_room {handed : ReceivedFrame → Prop}
    {result : Except ReceiveError Unit × ReceiveQueue} (h : queue.Takes handed result)
    (hhanded : ∀ stored, handed stored ↔ stored = frame)
    (hroom : queue.length < queue.capacity) :
    result.1 = .ok () ∧ result.2.frames = queue.frames ++ [frame] := by
  cases h with
  | @accepted stored next hstored _ hnext =>
      obtain rfl := (hhanded stored).mp hstored
      exact ⟨rfl, by rw [hnext]⟩
  | refused hreason =>
      obtain hnone | hfull := hreason
      · exact absurd ((hhanded frame).mpr rfl) (hnone frame)
      · exact absurd hroom (Nat.not_lt.mpr (Nat.le_of_eq hfull.symm))

/-- Once the frames in front of it have been returned, a frame is the next one. -/
theorem Serves.front (h : first.Serves history last) (hfirst : first.frames = waiting ++ [frame])
    (hcount : (history.filterMap Event.returned?).length = waiting.length) :
    history.filterMap Event.returned? = waiting ∧ last.dequeue = (.ok frame, last.tail) := by
  obtain ⟨-, -, -, stored, -, hframes⟩ := h
  rw [hfirst, List.append_assoc] at hframes
  obtain ⟨hreturned, hlast⟩ := List.append_inj hframes hcount.symm
  exact ⟨hreturned.symm, dequeue_of_cons hlast.symm⟩

theorem length_returned_dequeues (count : Nat) (hcount : count ≤ queue.length) :
    ((queue.run (List.replicate count .dequeue)).1.filterMap Event.returned?).length = count := by
  induction count generalizing queue with
  | zero => rfl
  | succ count ih =>
      obtain ⟨frame, rest, hframes⟩ := List.exists_cons_of_length_pos
        (Nat.lt_of_lt_of_le (Nat.succ_pos count) hcount)
      have hperform : queue.perform .dequeue = (.taken (.ok frame), queue.tail) := by
        rw [perform, dequeue_of_cons hframes]
        rfl
      have hrest : count ≤ queue.tail.length := by
        simp only [length, tail, List.length_tail] at hcount ⊢
        omega
      rw [List.replicate_succ, run, hperform]
      simp only [List.filterMap_cons, Event.returned?, List.length_cons, ih hrest]

/-- A driver has a frame for every outgoing one, unless the identifier has more than 29 bits or the
data is too long for the driver.  A queue that has room takes the driver's frame if the data fits;
and as soon as the frames that waited there are returned, by whatever calls, the next one has the
identifier and the data that were sent. -/
theorem receives_sent {φ : Type} [BusFrame φ] {limit : Nat} [LawfulBusFrame φ limit]
    (frame : OutgoingFrame) :
    (frame.toBusFrame φ = none ↔ 2 ^ 29 ≤ frame.id.toNat ∨ limit < frame.data.length) ∧
      ∀ sent : φ, frame.toBusFrame φ = some sent →
        ∀ (queue : ReceiveQueue) (timestamp : Micros), queue.isFull = false →
          ∀ hfits : frame.data.length ≤ queue.mtu.bytes,
            ∃ next, queue.receiveBusFrame sent timestamp = (.ok (), next) ∧
              ((next.run (List.replicate queue.length .dequeue)).1.filterMap
                Event.returned?).length = queue.length ∧
              ∀ calls, ((next.run calls).1.filterMap Event.returned?).length = queue.length →
                (next.run calls).1.filterMap Event.returned? = queue.frames ∧
                  (next.run calls).2.dequeue.1 =
                    .ok ⟨frame.id, ⟨queue.mtu, frame.data, hfits⟩, timestamp⟩ := by
  refine ⟨OutgoingFrame.toBusFrame_eq_none_iff φ, fun sent hsent queue timestamp hfull hfits => ?_⟩
  have hroom : queue.length < queue.capacity := by
    refine Nat.lt_of_le_of_ne queue.bounded ?_
    simpa [isFull] using hfull
  obtain ⟨hanswer, hframes⟩ := (queue.takes_receiveBusFrame sent timestamp).eq_of_room
    (fun stored => OutgoingFrame.hands_sent hsent hfits timestamp) hroom
  generalize queue.receiveBusFrame sent timestamp = result at hanswer hframes
  obtain ⟨answer, next⟩ := result
  obtain rfl : answer = .ok () := hanswer
  have hlength : queue.length ≤ next.length := by
    rw [length, length, hframes, List.length_append]
    exact Nat.le_add_right _ _
  refine ⟨next, rfl, length_returned_dequeues _ hlength, fun calls hcount => ?_⟩
  obtain ⟨hreturned, hdequeue⟩ := (serves_run next calls).front hframes hcount
  exact ⟨hreturned, congrArg Prod.fst hdequeue⟩

/-- The largest identifier and as much data as both sides take, behind a frame that waits. -/
theorem receives_sent_sample :
    let data : Bytes := [1, 2, 3, 4, 5, 6, 7, 8]
    let frame : OutgoingFrame := ⟨.ofNat 0x1FFFFFFF, data, 50⟩
    let sent : PlainFrame 8 := ⟨.extended 0x1FFFFFFF, false, data⟩
    let queue := ((empty 2 .classic).receive 7 [9] 100).2
    frame.toBusFrame (PlainFrame 8) = some sent ∧ queue.isFull = false ∧ queue.length = 1 ∧
      (∃ next, queue.receiveBusFrame sent 200 = (.ok (), next) ∧
        (next.run [.dequeue]).2.dequeue.1 =
          .ok ⟨.ofNat 0x1FFFFFFF, ⟨.classic, data, by decide⟩, 200⟩) ∧
      OutgoingFrame.toBusFrame (PlainFrame 8) ⟨.ofNat 0x20000000, data, 50⟩ = none ∧
      OutgoingFrame.toBusFrame (PlainFrame 8) ⟨.ofNat 0x1FFFFFFF, 0 :: data, 50⟩ = none := by
  intro data frame sent queue
  have hsent : frame.toBusFrame (PlainFrame 8) = some sent := by decide
  have hroom : queue.isFull = false := by decide
  have hfits : data.length ≤ queue.mtu.bytes := by decide
  obtain ⟨next, hreceived, hcount, hnext⟩ :=
    (receives_sent frame).2 sent hsent queue 200 hroom hfits
  have hlong := receives_sent (φ := PlainFrame 8) ⟨.ofNat 0x20000000, data, 50⟩
  have hwide := receives_sent (φ := PlainFrame 8) ⟨.ofNat 0x1FFFFFFF, 0 :: data, 50⟩
  exact ⟨hsent, hroom, by decide, ⟨next, hreceived, (hnext _ hcount).2⟩,
    hlong.1.mpr (.inl (by decide)), hwide.1.mpr (.inr (by decide))⟩

end ReceiveQueue

end CanNode
