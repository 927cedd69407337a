/-!
# Ports

A transfer is a message, a request or a response, and is addressed to a port: the subject of a
message, the service of a request or response.  The kind decides how large a port may be.

Transfers of one kind on one port share a topic: receivers subscribe to it, and engines keep a
session for it.
-/

namespace CanNode

/-! ## Kinds of transfers -/

inductive TransferKind where
  | message
  | request
  | response
deriving DecidableEq

namespace TransferKind

def name : TransferKind → String
  | .message => "Message"
  | .request => "Request"
  | .response => "Response"

def rank : TransferKind → Nat
  | .message => 0
  | .request => 1
  | .response => 2

instance : Ord TransferKind := ⟨fun first second => compare first.rank second.rank⟩

end TransferKind

/-! ## Port identifiers -/

structure PortId where
  val : UInt16
deriving DecidableEq

namespace PortId

def largestSubject : Nat := 8191

def largestService : Nat := 511

def toNat (port : PortId) : Nat :=
  port.val.toNat

/-- The port with a number, of which only the lowest 16 bits count. -/
def ofNat (n : Nat) : PortId :=
  ⟨UInt16.ofNat n⟩

def largest : TransferKind → Nat
  | .message => largestSubject
  | .request => largestService
  | .response => largestService

def fits (port : PortId) (kind : TransferKind) : Bool :=
  port.toNat ≤ largest kind

instance : Ord PortId := ⟨fun first second => compare first.toNat second.toNat⟩

theorem toNat_injective {first second : PortId} (h : first.toNat = second.toNat) :
    first = second := by
  cases first
  cases second
  exact congrArg PortId.mk (UInt16.toNat_inj.mp h)

theorem toNat_ofNat (n : Nat) : (ofNat n).toNat = n % 65536 := by
  simp [ofNat, toNat]

theorem fits_iff {port : PortId} {kind : TransferKind} :
    port.fits kind = true ↔ port.toNat ≤ largest kind := by
  simp [fits]

end PortId

/-! ## Topics -/

/-- The transfers of one kind on one port. -/
structure Topic where
  kind : TransferKind
  port : PortId
deriving DecidableEq

namespace Topic

def message (subject : PortId) : Topic :=
  ⟨.message, subject⟩

def request (service : PortId) : Topic :=
  ⟨.request, service⟩

def response (service : PortId) : Topic :=
  ⟨.response, service⟩

def isValid (topic : Topic) : Bool :=
  topic.port.fits topic.kind

end Topic

end CanNode
