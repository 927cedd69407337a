/-!
# Byte strings

Byte strings are lists of bytes.  Numbers are stored in them in little-endian order:
`toNat_ofNat` says that a number read back is the number written, reduced to the width
it was written with.
-/

namespace CanNode

abbrev Bytes := List UInt8

namespace Bytes

def count : Nat → Nat
  | 0 => 1
  | length + 1 => 256 * count length

/-- The number a byte string denotes, least significant byte first. -/
def toNat : Bytes → Nat
  | [] => 0
  | byte :: rest => byte.toNat + 256 * toNat rest

/-- The lowest `width` bytes of a number, least significant byte first. -/
def ofNat : Nat → Nat → Bytes
  | 0, _ => []
  | width + 1, n => UInt8.ofNat n :: ofNat width (n / 256)

@[simp] theorem length_ofNat (width n : Nat) : (ofNat width n).length = width := by
  induction width generalizing n with
  | zero => rfl
  | succ width ih => simp [ofNat, ih]

/-- Reading back gives the number that was written, reduced to its width. -/
theorem toNat_ofNat (width n : Nat) : toNat (ofNat width n) = n % count width := by
  induction width generalizing n with
  | zero => simp [ofNat, toNat, count, Nat.mod_one]
  | succ width ih =>
      have hbyte : (UInt8.ofNat n).toNat = n % 256 := by simp
      rw [ofNat, toNat, ih, hbyte, count, Nat.mod_mul]

theorem toNat_lt (bytes : Bytes) : toNat bytes < count bytes.length := by
  induction bytes with
  | nil => simp [toNat, count]
  | cons byte rest ih =>
      have hbyte : byte.toNat < 256 := byte.toNat_lt
      simp only [toNat, List.length_cons, count]
      omega

/-- A pattern laid end to end until `length` bytes are filled; nothing for an empty pattern. -/
def tile (pattern : Bytes) (length : Nat) : Bytes :=
  match pattern with
  | [] => []
  | _ :: _ => ((List.replicate length pattern).flatten).take length

end Bytes

end CanNode
