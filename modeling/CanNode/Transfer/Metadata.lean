import CanNode.Config
import CanNode.Port
import CanNode.Priority
import CanNode.RecordText

/-!
# Transfer metadata

What a transfer is addressed and ordered by.  A transfer identifier is a cyclic counter of five
bits that tells the transfers of one port apart.
-/

namespace CanNode

structure TransferId where
  val : Fin 32
deriving DecidableEq

namespace TransferId

def mask : Nat := 0x1F

instance : Inhabited TransferId := ⟨⟨0⟩⟩

def toNat (id : TransferId) : Nat :=
  id.val

def ofNat (n : Nat) : TransferId :=
  ⟨⟨n % 32, Nat.mod_lt n (by decide)⟩⟩

/-- The counter one step on; zero follows 31. -/
def next (id : TransferId) : TransferId :=
  ofNat (id.toNat + 1)

end TransferId

/-- Here `remote` is where a received transfer comes from, or where a service transfer goes to. -/
structure Metadata where
  priority : Priority
  kind : TransferKind
  port : PortId
  remote : Option NodeId
  transferId : TransferId
deriving DecidableEq

namespace Metadata

def message (subject : PortId) (transferId : TransferId) : Metadata :=
  { priority := default, kind := .message, port := subject, remote := none, transferId }

def service (kind : TransferKind) (service : PortId) (remote : NodeId)
    (transferId : TransferId) : Metadata :=
  { priority := default, kind, port := service, remote := some remote, transferId }

def withPriority (metadata : Metadata) (priority : Priority) : Metadata :=
  { metadata with priority }

def text (metadata : Metadata) : String :=
  RecordText.record "TransferMetadata"
    [("priority", metadata.priority.name),
     ("kind", metadata.kind.name),
     ("port_id", RecordText.tagged "PortId" (toString metadata.port.toNat)),
     ("remote_node_id", RecordText.optional <| metadata.remote.map fun node =>
       RecordText.tagged "NodeId" (toString node.toNat)),
     ("transfer_id", RecordText.tagged "TransferId" (toString metadata.transferId.toNat))]

end Metadata

end CanNode
