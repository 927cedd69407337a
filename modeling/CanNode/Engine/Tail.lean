import CanNode.Transfer.Metadata

/-!
# Tail bytes

The last byte of a frame says where the frame stands in its transfer: bit 7 marks the first
frame and bit 6 the last, bit 5 alternates from frame to frame, and the lowest five bits are
the transfer identifier.
-/

namespace CanNode

structure Tail where
  first : Bool
  last : Bool
  toggle : Bool
  transferId : TransferId
deriving DecidableEq

namespace Tail

def ofByte (byte : UInt8) : Tail where
  first := byte.toNat / 128 == 1
  last := byte.toNat / 64 % 2 == 1
  toggle := byte.toNat / 32 % 2 == 1
  transferId := TransferId.ofNat byte.toNat

def toByte (tail : Tail) : UInt8 :=
  UInt8.ofNat (tail.first.toNat * 128 + tail.last.toNat * 64 + tail.toggle.toNat * 32 +
    tail.transferId.toNat)

/-- The tail of the frame at an index in a transfer of `count` frames. -/
def ofIndex (transferId : TransferId) (count index : Nat) : Tail where
  first := index == 0
  last := index + 1 == count
  toggle := index % 2 == 0
  transferId := transferId

end Tail

end CanNode
