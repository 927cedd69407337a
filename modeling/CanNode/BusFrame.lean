import CanNode.Frame

/-!
# Bus frames

The frames a bus driver deals in.  A driver has its own type of frames and its own limit on
their length; `BusFrame` says what such a type offers.
-/

namespace CanNode

abbrev standardIdCount : Nat := 2048

inductive BusId where
  | standard (id : Fin standardIdCount)
  | extended (id : Fin Identifier.count)
deriving DecidableEq

class BusFrame (φ : Type) where
  make : Fin Identifier.count → Bytes → Option φ
  id : φ → BusId
  isRemote : φ → Bool
  data : φ → Bytes

/-- Frames that keep what they are made of, and are refused only beyond `limit` data bytes. -/
class LawfulBusFrame (φ : Type) [BusFrame φ] (limit : outParam Nat) : Prop where
  isSome_make : ∀ id data, (BusFrame.make (φ := φ) id data).isSome ↔ data.length ≤ limit
  id_make : ∀ {id data} {frame : φ}, BusFrame.make id data = some frame →
    BusFrame.id frame = .extended id
  isRemote_make : ∀ {id data} {frame : φ}, BusFrame.make id data = some frame →
    BusFrame.isRemote frame = false
  data_make : ∀ {id data} {frame : φ}, BusFrame.make id data = some frame →
    BusFrame.data frame = data

/-- A frame as a value, with at most `limit` data bytes when it is made from an outgoing one. -/
structure PlainFrame (limit : Nat) where
  id : BusId
  isRemote : Bool
  data : Bytes
deriving DecidableEq

namespace PlainFrame

instance (limit : Nat) : BusFrame (PlainFrame limit) where
  make id data := if data.length ≤ limit then some ⟨.extended id, false, data⟩ else none
  id := PlainFrame.id
  isRemote := PlainFrame.isRemote
  data := PlainFrame.data

private theorem eq_of_make {limit : Nat} {id : Fin Identifier.count} {data : Bytes}
    {frame : PlainFrame limit} (h : BusFrame.make id data = some frame) :
    frame = ⟨.extended id, false, data⟩ := by
  simp only [BusFrame.make, Option.ite_none_right_eq_some, Option.some.injEq] at h
  exact h.2.symm

instance (limit : Nat) : LawfulBusFrame (PlainFrame limit) limit where
  isSome_make id data := by simp [BusFrame.make]
  id_make h := by rw [eq_of_make h]; rfl
  isRemote_make h := by rw [eq_of_make h]; rfl
  data_make h := by rw [eq_of_make h]; rfl

end PlainFrame

namespace OutgoingFrame

/-- The frame in the driver's own type.  There is none if the identifier is not an extended
one, or if the driver refuses the length. -/
def toBusFrame (φ : Type) [BusFrame φ] (frame : OutgoingFrame) : Option φ :=
  if h : frame.id.toNat < Identifier.count then
    BusFrame.make ⟨frame.id.toNat, h⟩ frame.data
  else
    none

end OutgoingFrame

end CanNode
