import CanNode.Engine.TailByte
import CanNode.Proofs.Node.History

/-!
# Scripted surroundings

A clock, transmitters and receivers that follow a script, and runs among them.  Statements about
all nodes are tried out on such runs.
-/

namespace CanNode

/-- A clock that shows the times of a list, and zero from then on. -/
structure ScriptedClock where
  times : List Micros

instance : Clock ScriptedClock where
  read clock := (clock.times.headD 0, ⟨clock.times.tail⟩)

/-- A transmitter that answers from a list, and refuses what is offered after that. -/
structure ScriptedTransmitter where
  answers : List Bool

instance : Transmitter ScriptedTransmitter where
  transmit _ transmitter := (transmitter.answers.headD false, ⟨transmitter.answers.tail⟩)

/-- A receiver that notes its number and the payloads it gets. -/
structure Recorder where
  number : Nat
deriving DecidableEq

instance : Receiver Recorder (Shared (List (Nat × Bytes))) where
  onTransfer recorder delivery shared := do
    let payload ← delivery.payload
    return { shared with app := shared.app ++ [(recorder.number, payload)] }

/-- Whether a run ends, and in what, can be found out by performing it. -/
theorem Node.exists_run_of_any {σ κ ρ α τ : Type} [Engine σ] [Clock κ] [Receiver ρ (Shared α)]
    [Transmitter τ] {started : Except StartError (Node σ κ ρ α)} {calls : List (Node.Call ρ τ)}
    {p : Node σ κ ρ α → Bool}
    (h : (started.toOption.bind fun node => (node.run calls).toOption).any p = true) :
    ∃ node last, started = .ok node ∧ node.run calls = .ok last ∧ p last = true := by
  cases started with
  | error error => cases h
  | ok node =>
      cases hrun : node.run calls with
      | error fault =>
          simp only [Except.toOption, Option.bind_some, hrun] at h
          cases h
      | ok last =>
          simp only [Except.toOption, Option.bind_some, hrun] at h
          exact ⟨node, last, rfl, hrun, h⟩

abbrev ScriptedNode := Node TailByteEngine ScriptedClock Recorder (List (Nat × Bytes))

namespace ScriptedNode

def start (times : List Micros) : Except StartError ScriptedNode :=
  Node.start {} (Arena.filled 256 0xAA) ⟨times⟩ ⟨ReceiveQueue.empty 4 .classic, []⟩
    { nodeId := NodeId.ofNat? 42, transmitCapacity := 8 } 2

def rehearse (times : List Micros) (calls : List (Node.Call Recorder ScriptedTransmitter)) :
    Option ScriptedNode :=
  match start times with
  | .error _ => none
  | .ok node => (node.run calls).toOption

theorem exists_run_of_rehearse {times : List Micros}
    {calls : List (Node.Call Recorder ScriptedTransmitter)} {p : ScriptedNode → Bool}
    (h : (rehearse times calls).any p = true) :
    ∃ node last, start times = .ok node ∧ node.run calls = .ok last ∧ p last = true := by
  refine Node.exists_run_of_any ?_
  unfold rehearse at h
  cases hstart : start times with
  | error error => simp [hstart] at h
  | ok node => simpa [hstart, Except.toOption] using h

end ScriptedNode

end CanNode
