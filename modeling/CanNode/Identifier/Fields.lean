import CanNode.Identifier.Basic

/-!
# Identifier fields

The fields an identifier is built from.  Not all combinations have an identifier: the port must
suit the kind, a message has no destination, and a service has both ends.  `Fields.encode`
builds the identifier or says what is wrong.
-/

namespace CanNode

namespace Identifier

inductive EncodeError where
  | portOutOfRange (port : PortId)
  | destinationOnMessage
  | missingDestination
  | anonymousService
deriving DecidableEq

def EncodeError.message : EncodeError → String
  | .portOutOfRange port => s!"Port {port.toNat} out of range for the transfer kind"
  | .destinationOnMessage => "Messages cannot carry a destination"
  | .missingDestination => "Service transfer without destination"
  | .anonymousService => "Anonymous node cannot exchange service transfers"

structure Fields where
  priority : Priority := default
  kind : TransferKind
  port : PortId
  source : Option NodeId
  destination : Option NodeId := none
  pseudoId : Fin 128 := 0
deriving DecidableEq

namespace Fields

def message (subject : PortId) (source : NodeId) : Fields :=
  { kind := .message, port := subject, source := some source }

/-- A message without a source.  Seven bits of `pseudoId` stand in its place. -/
def anonymous (subject : PortId) (pseudoId : Nat) : Fields :=
  { kind := .message, port := subject, source := none, pseudoId := (NodeId.truncate pseudoId).val }

def service (kind : TransferKind) (service : PortId) (source destination : NodeId) : Fields :=
  { kind, port := service, source := some source, destination := some destination }

def withPriority (fields : Fields) (priority : Priority) : Fields :=
  { fields with priority }

def messageWord (fields : Fields) : Nat :=
  let sender := match fields.source with
    | some node => node.toNat
    | none => 1 <<< 24 + fields.pseudoId
  fields.priority.level <<< 26 + 3 <<< 21 + fields.port.toNat <<< 8 + sender

def serviceWord (fields : Fields) (source destination : NodeId) : Nat :=
  let request := if fields.kind = .request then 1 <<< 24 else 0
  fields.priority.level <<< 26 + 1 <<< 25 + request + fields.port.toNat <<< 14 +
    destination.toNat <<< 7 + source.toNat

def encode (fields : Fields) : Except EncodeError Identifier :=
  if !fields.port.fits fields.kind then
    .error (.portOutOfRange fields.port)
  else
    match fields.kind, fields.source, fields.destination with
    | .message, _, some _ => .error .destinationOnMessage
    | .message, _, none => .ok (Identifier.ofNat fields.messageWord)
    | _, none, _ => .error .anonymousService
    | _, some _, none => .error .missingDestination
    | _, some source, some destination =>
        .ok (Identifier.ofNat (fields.serviceWord source destination))

end Fields

end Identifier

end CanNode
