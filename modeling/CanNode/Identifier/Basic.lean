import CanNode.Config
import CanNode.Port
import CanNode.Priority

/-!
# Frame identifiers

The 29-bit identifier of a frame says what the frame belongs to.

| bits | message | service |
|---|---|---|
| 28 to 26 | priority | priority |
| 25 | 0 | 1 |
| 24 | anonymous | request, not response |
| 23 | 0 | 0 |
| 22 and 21 | 1 1 | service |
| 20 to 14 | subject | service |
| 13 to 8 | subject | destination |
| 7 | 0 | destination |
| 6 to 0 | source, or pseudo-identifier | source |

Every word of 32 bits can be read this way, conforming or not.
-/

namespace CanNode

/-- The identifier of a frame, in the lowest 29 bits of a word. -/
structure Identifier where
  raw : UInt32
deriving DecidableEq

namespace Identifier

abbrev count : Nat := 536870912

def toNat (id : Identifier) : Nat :=
  id.raw.toNat

def ofNat (n : Nat) : Identifier :=
  ⟨UInt32.ofNat n⟩

def bits (id : Identifier) (low width : Nat) : Nat :=
  (id.toNat >>> low) % (1 <<< width)

def isExtended (id : Identifier) : Bool :=
  id.toNat < count

def priority (id : Identifier) : Priority :=
  Priority.ofLevel (id.bits 26 3)

def isService (id : Identifier) : Bool :=
  id.bits 25 1 == 1

def kind (id : Identifier) : TransferKind :=
  if !id.isService then .message
  else if id.bits 24 1 = 1 then .request
  else .response

def port (id : Identifier) : PortId :=
  if id.isService then PortId.ofNat (id.bits 14 9) else PortId.ofNat (id.bits 8 13)

def isAnonymous (id : Identifier) : Bool :=
  !id.isService && id.bits 24 1 == 1

def source (id : Identifier) : Option NodeId :=
  if id.isAnonymous then none else some (NodeId.truncate (id.bits 0 7))

def destination (id : Identifier) : Option NodeId :=
  if id.isService then some (NodeId.truncate (id.bits 7 7)) else none

theorem toNat_injective {first second : Identifier} (h : first.toNat = second.toNat) :
    first = second := by
  cases first
  cases second
  exact congrArg Identifier.mk (UInt32.toNat_inj.mp h)

theorem toNat_ofNat (n : Nat) : (ofNat n).toNat = n % 4294967296 :=
  UInt32.toNat_ofNat' ..

end Identifier

end CanNode
