import CanNode.Bytes
import CanNode.Clock
import CanNode.Identifier.Basic
import CanNode.Config
import CanNode.RecordText

/-!
# Frames

A received frame is stored as it came off the bus, with the time of its arrival.  An outgoing
frame is offered to a transmitter until its deadline.
-/

namespace CanNode

/-! ## Errors on reception -/

inductive ReceiveError where
  | full
  | emptyBuffer
  | payloadTooLong (len mtu : Nat)
  | invalidIdentifier (id : Nat)
  | remoteFrame (id : Nat)
  | mtuMismatch (payload queue : Nat)
deriving DecidableEq

namespace ReceiveError

def hexadecimal (n : Nat) : String :=
  "0x" ++ (String.ofList (Nat.toDigits 16 n)).toUpper

def message : ReceiveError → String
  | .full => "Receive buffer full"
  | .emptyBuffer => "Receive buffer empty"
  | .payloadTooLong len mtu => s!"Payload too long: {len} bytes for an MTU of {mtu}"
  | .invalidIdentifier id => "Invalid extended CAN identifier: " ++ hexadecimal id
  | .remoteFrame id => "Remote frame " ++ hexadecimal id ++ " rejected"
  | .mtuMismatch payload queue =>
      s!"Payload stored for an MTU of {payload}, buffer MTU is {queue}"

end ReceiveError

/-! ## Data fields -/

structure DataField where
  mtu : Mtu
  bytes : Bytes
  fits : bytes.length ≤ mtu.bytes
deriving DecidableEq

namespace DataField

def ofBytes (mtu : Mtu) (bytes : Bytes) : Except ReceiveError DataField :=
  if h : bytes.length ≤ mtu.bytes then
    .ok ⟨mtu, bytes, h⟩
  else
    .error (.payloadTooLong bytes.length mtu.bytes)

def text (field : DataField) : String :=
  RecordText.tagged field.mtu.name (RecordText.bytes field.bytes)

end DataField

/-! ## Received frames -/

structure ReceivedFrame where
  id : Identifier
  data : DataField
  timestamp : Micros
deriving DecidableEq

namespace ReceivedFrame

/-- Store a frame that came off the bus.  Its identifier is checked before its length. -/
def ofRaw (mtu : Mtu) (id : UInt32) (data : Bytes) (timestamp : Micros) :
    Except ReceiveError ReceivedFrame :=
  if (Identifier.mk id).isExtended then do
    let field ← DataField.ofBytes mtu data
    return ⟨⟨id⟩, field, timestamp⟩
  else
    .error (.invalidIdentifier id.toNat)

end ReceivedFrame

/-! ## Outgoing frames -/

/-- A frame offered for transmission.  It must not be sent after its deadline. -/
structure OutgoingFrame where
  id : Identifier
  data : Bytes
  deadline : Micros
deriving DecidableEq

class Transmitter (τ : Type) where
  transmit : OutgoingFrame → τ → Bool × τ

end CanNode
