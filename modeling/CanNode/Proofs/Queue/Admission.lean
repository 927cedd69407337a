import CanNode.Proofs.Queue.Fifo

/-!
# What a receive queue objects to

Several things can be wrong with a frame at once.  `ReceiveQueue.Judges` says that an offer is
answered by the first objection of a list that applies, and that a refusal leaves nothing behind
but the drop that is counted.  `ReceiveQueue.offers_judged` says what the lists are: what every
entry point of a queue objects to, and in which order.
-/

namespace CanNode

namespace ReceiveQueue

/-- Something that can be wrong with a frame, and the error that tells of it. -/
structure Objection where
  applies : Prop
  error : ReceiveError

/-- An offer is refused with the first objection that applies, and accepted if none does. -/
structure Judges (queue : ReceiveQueue) (objections : List Objection)
    (stored : ReceivedFrame → Prop) (result : Except ReceiveError Unit × ReceiveQueue) : Prop where
  refused : ∀ error, result.1 = .error error ↔ ∃ before objection after,
    objections = before ++ objection :: after ∧ objection.error = error ∧ objection.applies ∧
      ∀ other ∈ before, ¬ other.applies
  accepted : result.1 = .ok () ↔ ∀ objection ∈ objections, ¬ objection.applies
  dropped : ∀ error, result.1 = .error error →
    result.2 = { queue with dropped := queue.dropped + 1 }
  appended : result.1 = .ok () → ∃ frame, ∃ hroom : queue.length < queue.capacity, stored frame ∧
    result.2 = { queue with
      frames := queue.frames ++ [frame]
      bounded := length_concat_le hroom frame }

namespace Judges

variable {queue : ReceiveQueue} {objection : Objection} {rest : List Objection}
  {stored : ReceivedFrame → Prop} {result : Except ReceiveError Unit × ReceiveQueue}

theorem of_applies (h : objection.applies) :
    queue.Judges (objection :: rest) stored (queue.drop objection.error) where
  refused error := by
    constructor
    · intro herror
      exact ⟨[], objection, rest, rfl, Except.error.inj herror, h, by simp⟩
    · rintro ⟨before, other, after, hlist, rfl, -, hbefore⟩
      cases before with
      | nil => rw [(List.cons.inj hlist).1]; rfl
      | cons first _ =>
          obtain rfl : objection = first := (List.cons.inj hlist).1
          exact absurd h (hbefore objection List.mem_cons_self)
  accepted := by
    constructor
    · nofun
    · intro hnone
      exact absurd h (hnone objection List.mem_cons_self)
  dropped _ _ := rfl
  appended := nofun

theorem cons (h : ¬ objection.applies) (hrest : queue.Judges rest stored result) :
    queue.Judges (objection :: rest) stored result where
  refused error := by
    rw [hrest.refused]
    constructor
    · rintro ⟨before, other, after, rfl, herror, happlies, hbefore⟩
      exact ⟨objection :: before, other, after, rfl, herror, happlies,
        List.forall_mem_cons.mpr ⟨h, hbefore⟩⟩
    · rintro ⟨before, other, after, hlist, herror, happlies, hbefore⟩
      cases before with
      | nil =>
          obtain rfl : objection = other := (List.cons.inj hlist).1
          exact absurd happlies h
      | cons first before =>
          exact ⟨before, other, after, (List.cons.inj hlist).2, herror, happlies,
            (List.forall_mem_cons.mp hbefore).2⟩
  accepted := by
    rw [hrest.accepted, List.forall_mem_cons]
    exact (and_iff_right h).symm
  dropped := hrest.dropped
  appended := hrest.appended

theorem nil {frame : ReceivedFrame} (hstored : stored frame)
    (hroom : queue.length < queue.capacity) :
    queue.Judges [] stored (.ok (), { queue with
      frames := queue.frames ++ [frame]
      bounded := length_concat_le hroom frame }) where
  refused := by simp
  accepted := by simp
  dropped := nofun
  appended _ := ⟨frame, hroom, hstored, rfl⟩

theorem exists_of_error {error : ReceiveError} (h : queue.Judges rest stored result)
    (herror : result.1 = .error error) : ∃ objection ∈ rest, objection.error = error := by
  obtain ⟨before, objection, after, rfl, heq, -⟩ := (h.refused error).mp herror
  exact ⟨objection, by simp, heq⟩

end Judges

variable (queue : ReceiveQueue)

def storedObjections (frame : ReceivedFrame) : List Objection :=
  [⟨frame.data.mtu ≠ queue.mtu, .mtuMismatch frame.data.mtu.bytes queue.mtu.bytes⟩,
    ⟨queue.length = queue.capacity, .full⟩]

def rawObjections (id : Nat) (data : Bytes) : List Objection :=
  [⟨2 ^ 29 ≤ id, .invalidIdentifier id⟩,
    ⟨queue.mtu.bytes < data.length, .payloadTooLong data.length queue.mtu.bytes⟩,
    ⟨queue.length = queue.capacity, .full⟩]

theorem judges_enqueue_of_mtu_eq {frame : ReceivedFrame} {stored : ReceivedFrame → Prop}
    (hmtu : frame.data.mtu = queue.mtu) (hstored : stored frame) :
    queue.Judges [⟨queue.length = queue.capacity, .full⟩] stored (queue.enqueue frame) := by
  have hfits : ¬ queue.mtu.bytes < frame.data.bytes.length := by
    rw [← hmtu]
    exact Nat.not_lt.mpr frame.data.fits
  unfold enqueue
  rw [if_neg (not_not_intro hmtu), if_neg hfits]
  split
  · next hroom => exact .cons (Nat.ne_of_lt hroom) (.nil hstored hroom)
  · next hfull => exact .of_applies (Nat.le_antisymm queue.bounded (Nat.not_lt.mp hfull))

theorem judges_enqueue (frame : ReceivedFrame) :
    queue.Judges (queue.storedObjections frame) (frame = ·) (queue.enqueue frame) := by
  by_cases hmtu : frame.data.mtu = queue.mtu
  · exact .cons (not_not_intro hmtu) (queue.judges_enqueue_of_mtu_eq hmtu rfl)
  · unfold enqueue
    rw [if_pos hmtu]
    exact .of_applies hmtu

/-- A frame off the bus is stored for the frame width of the queue, or is not stored at all. -/
theorem judges_receive (id : UInt32) (data : Bytes) (timestamp : Micros) :
    queue.Judges (queue.rawObjections id.toNat data)
      (·.Stores queue.mtu id.toNat data timestamp) (queue.receive id data timestamp) := by
  unfold receive rawObjections
  cases hraw : ReceivedFrame.ofRaw queue.mtu id data timestamp with
  | error error =>
      unfold ReceivedFrame.ofRaw at hraw
      split at hraw
      · next hextended =>
          refine .cons (Nat.not_le.mpr (of_decide_eq_true hextended)) ?_
          unfold DataField.ofBytes at hraw
          split at hraw
          · cases hraw
          · next hlong =>
              cases hraw
              exact .of_applies (Nat.not_le.mp hlong)
      · next hstandard =>
          cases hraw
          exact .of_applies (Nat.not_lt.mp (of_decide_eq_false (eq_false_of_ne_true hstandard)))
  | ok frame =>
      have hstores := ReceivedFrame.ofRaw_eq_ok_iff.mp hraw
      have hshort : ¬ queue.mtu.bytes < data.length := by
        rw [← hstores.mtu, ← hstores.data]
        exact Nat.not_lt.mpr frame.data.fits
      refine .cons (Nat.not_le.mpr hstores.extended) (.cons hshort ?_)
      exact queue.judges_enqueue_of_mtu_eq hstores.mtu hstores

section BusFrames

variable {φ : Type} [BusFrame φ] {frame : φ}

theorem receiveBusFrame_eq_receive {raw : UInt32} {id : Fin Identifier.count}
    (hid : BusFrame.id frame = .extended id) (hdata : BusFrame.isRemote frame = false)
    (hraw : raw.toNat = id) (timestamp : Micros) :
    queue.receiveBusFrame frame timestamp = queue.receive raw (BusFrame.data frame) timestamp := by
  have hword : UInt32.ofNat id = raw := by rw [← hraw, UInt32.ofNat_toNat]
  simp [receiveBusFrame, hid, hdata, hword]

theorem receiveBusFrame_of_remote {id : Fin Identifier.count}
    (hid : BusFrame.id frame = .extended id) (hremote : BusFrame.isRemote frame = true)
    (timestamp : Micros) :
    queue.receiveBusFrame frame timestamp = queue.drop (.remoteFrame id) := by
  simp [receiveBusFrame, hid, hremote]

theorem receiveBusFrame_of_standard {id : Fin standardIdCount}
    (hid : BusFrame.id frame = .standard id) (timestamp : Micros) :
    queue.receiveBusFrame frame timestamp = queue.drop (.invalidIdentifier id) := by
  simp [receiveBusFrame, hid]

end BusFrames

/-- An identifier that is too large comes before data that is too long, and both before a queue
that is full; a frame that is already stored is refused for another width before it is refused for
the queue being full.  Data frames off the bus with an extended identifier are judged as if they
were handed in by identifier and data, and no others are taken. -/
theorem offers_judged (queue : ReceiveQueue) :
    (∀ (id : UInt32) (data : Bytes) (timestamp : Micros),
      let result := queue.receive id data timestamp
      queue.Judges (queue.rawObjections id.toNat data)
          (·.Stores queue.mtu id.toNat data timestamp) result ∧
        ∀ payload width, result.1 ≠ .error (.mtuMismatch payload width)) ∧
      (∀ frame : ReceivedFrame,
        let result := queue.enqueue frame
        queue.Judges (queue.storedObjections frame) (frame = ·) result ∧
          ∀ len width, result.1 ≠ .error (.payloadTooLong len width)) ∧
      ∀ {φ : Type} [BusFrame φ] (frame : φ) (timestamp : Micros),
        let result := queue.receiveBusFrame frame timestamp
        (∀ id, BusFrame.id frame = .extended id → BusFrame.isRemote frame = false →
          ∀ raw : UInt32, raw.toNat = id →
            result = queue.receive raw (BusFrame.data frame) timestamp) ∧
          (∀ id, BusFrame.id frame = .extended id → BusFrame.isRemote frame = true →
            result = (.error (.remoteFrame id), { queue with dropped := queue.dropped + 1 })) ∧
          ∀ id, BusFrame.id frame = .standard id →
            result = (.error (.invalidIdentifier id),
              { queue with dropped := queue.dropped + 1 }) := by
  refine ⟨fun id data timestamp => ⟨queue.judges_receive id data timestamp, ?_⟩,
    fun frame => ⟨queue.judges_enqueue frame, ?_⟩, fun frame timestamp => ⟨?_, ?_, ?_⟩⟩
  · intro payload width herror
    obtain ⟨objection, hmem, heq⟩ := (queue.judges_receive id data timestamp).exists_of_error herror
    simp only [rawObjections, List.mem_cons, List.not_mem_nil, or_false] at hmem
    obtain rfl | rfl | rfl := hmem <;> cases heq
  · intro len width herror
    obtain ⟨objection, hmem, heq⟩ := (queue.judges_enqueue frame).exists_of_error herror
    simp only [storedObjections, List.mem_cons, List.not_mem_nil, or_false] at hmem
    obtain rfl | rfl := hmem <;> cases heq
  · intro id hid hdata raw hraw
    exact queue.receiveBusFrame_eq_receive hid hdata hraw timestamp
  · intro id hid hremote
    exact queue.receiveBusFrame_of_remote hid hremote timestamp
  · intro id hid
    exact queue.receiveBusFrame_of_standard hid timestamp

theorem offers_judged_sample :
    let queue := empty 0 .classic
    let long : Bytes := List.replicate 9 0
    let frame : PlainFrame 64 := ⟨.extended 5, false, long⟩
    let asking : PlainFrame 64 := { frame with isRemote := true }
    (queue.receive 0xFFFFFFFF long 0).1 = .error (.invalidIdentifier 0xFFFFFFFF) ∧
      (queue.receiveBusFrame frame 0).1 = .error (.payloadTooLong 9 8) ∧
      queue.receiveBusFrame asking 0 = (.error (.remoteFrame 5), { queue with dropped := 1 }) := by
  intro queue long frame asking
  obtain ⟨hreceive, -, hframes⟩ := offers_judged queue
  refine ⟨?_, ?_, ?_⟩
  · refine ((hreceive 0xFFFFFFFF long 0).1.refused _).mpr ⟨[], _, _, rfl, rfl, ?_, nofun⟩
    decide
  · rw [(hframes frame 0).1 5 rfl rfl 5 rfl]
    refine ((hreceive 5 long 0).1.refused _).mpr ⟨[_], _, _, rfl, rfl, ?_, ?_⟩
    · decide
    · exact List.forall_mem_singleton.mpr (by decide)
  · exact (hframes asking 0).2.1 5 rfl rfl

end ReceiveQueue

end CanNode
