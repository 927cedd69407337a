import CanNode.Clock
import CanNode.Config
import CanNode.Frame
import CanNode.Port
import CanNode.Transfer.Delivery

/-!
# Transfer engines

An engine turns frames into transfers and transfers into frames.  It keeps the sessions that
topics need and the queue of frames to transmit; the node moves frames in, transfers
out, and drains the queue.  `Engine` says what an engine offers.
-/

namespace CanNode

/-! ## Sessions -/

/-- For two seconds a repeated transfer identifier marks a duplicate. -/
def defaultTransferIdTimeout : Micros := 2000000

/-- Of a transfer that is longer than `extent` the rest is cut off. -/
structure SessionParams where
  extent : Nat
  transferIdTimeout : Micros := defaultTransferIdTimeout
deriving DecidableEq

namespace SessionParams

instance : Inhabited SessionParams := ⟨{ extent := 0 }⟩

def withTransferIdTimeout (params : SessionParams) (timeout : Micros) : SessionParams :=
  { params with transferIdTimeout := timeout }

end SessionParams

/-! ## What an engine offers -/

inductive EngineError where
  | outOfMemory
  | queueFull
  | invalidArgument
deriving DecidableEq

def EngineError.message : EngineError → String
  | .outOfMemory => "Out of memory"
  | .queueFull => "Transmit queue full"
  | .invalidArgument => "Invalid argument"

/-- What an engine makes of a frame. -/
inductive AcceptOutcome where
  | rejected
  | fragment
  | complete (transfer : Transfer)
  | outOfMemory
deriving DecidableEq

/-- A frame that waits for transmission, with its data in a block of the heap. -/
structure QueuedFrame where
  deadline : Micros
  id : Identifier
  payload : Block
deriving DecidableEq

/-- The answer to `unsubscribe` says whether there was a session, that to `push` how many frames
were queued.  The block of a completed transfer passes to the caller, and so does that of a frame
that is popped. -/
class Engine (σ : Type) where
  configure : NodeConfig → σ → σ
  accept : ReceivedFrame → σ → Heap → Except Fault (AcceptOutcome × σ × Heap)
  subscribe : Topic → SessionParams → σ → Except EngineError Unit × σ
  unsubscribe : Topic → σ → Heap → Except Fault (Bool × σ × Heap)
  push : Micros → Metadata → Bytes → σ → Heap →
    Except Fault (Except EngineError Nat × σ × Heap)
  peek : σ → Option QueuedFrame
  pop : σ → Option QueuedFrame × σ
  pending : σ → Nat

end CanNode
