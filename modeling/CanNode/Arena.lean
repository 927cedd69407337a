import CanNode.Bytes

/-!
# Memory arenas

An arena is a fixed number of bytes addressed from zero.  Reads and writes are total: a byte
beyond the end reads as zero, and a write there has no effect.  `byte_overlay` says which byte
every address holds after a write, and `word_setWord` that a word reads back as it was written.
-/

namespace CanNode

def wordCount : Nat := 4294967296

structure Arena where
  bytes : ByteArray

namespace Arena

def size (arena : Arena) : Nat :=
  arena.bytes.size

def filled (size : Nat) (value : UInt8) : Arena :=
  ⟨⟨Array.replicate size value⟩⟩

def byte (arena : Arena) (address : Nat) : UInt8 :=
  if h : address < arena.bytes.size then arena.bytes[address] else 0

def setByte (arena : Arena) (address : Nat) (value : UInt8) : Arena :=
  if h : address < arena.bytes.size then ⟨arena.bytes.set address value h⟩ else arena

def slice (arena : Arena) (address length : Nat) : Bytes :=
  (List.range length).map fun index => arena.byte (address + index)

def overlay (arena : Arena) (address : Nat) : Bytes → Arena
  | [] => arena
  | value :: rest => (arena.setByte address value).overlay (address + 1) rest

/-- The 32-bit little-endian word at an address. -/
def word (arena : Arena) (address : Nat) : Nat :=
  (arena.slice address 4).toNat

def setWord (arena : Arena) (address value : Nat) : Arena :=
  arena.overlay address (Bytes.ofNat 4 value)

@[simp] theorem size_filled (size : Nat) (value : UInt8) : (filled size value).size = size := by
  simp [filled, Arena.size, ByteArray.size]

private theorem size_bytes_set (bytes : ByteArray) (address : Nat) (value : UInt8)
    (h : address < bytes.size) : (bytes.set address value h).size = bytes.size := by
  simp only [← ByteArray.size_data, ByteArray.data_set, Array.size_set]

@[simp] theorem size_setByte (arena : Arena) (address : Nat) (value : UInt8) :
    (arena.setByte address value).size = arena.size := by
  unfold setByte
  split
  · exact size_bytes_set ..
  · rfl

theorem byte_setByte (arena : Arena) (address other : Nat) (value : UInt8) :
    (arena.setByte address value).byte other =
      if other = address ∧ address < arena.size then value else arena.byte other := by
  unfold setByte byte Arena.size
  by_cases h : address < arena.bytes.size
  · simp only [h, dif_pos, size_bytes_set, ByteArray.getElem_eq_getElem_data, ByteArray.data_set,
      Array.getElem_set, and_true]
    by_cases ho : other = address
    · simp [ho, h]
    · simp [ho, Ne.symm ho]
  · simp [h]

@[simp] theorem size_overlay (arena : Arena) (address : Nat) (values : Bytes) :
    (arena.overlay address values).size = arena.size := by
  induction values generalizing arena address with
  | nil => rfl
  | cons value rest ih => simp [overlay, ih]

/-- A write changes the bytes it covers, as far as the arena reaches, and no others. -/
theorem byte_overlay (arena : Arena) (address other : Nat) (values : Bytes)
    (hfit : address + values.length ≤ arena.size) :
    (arena.overlay address values).byte other =
      if h : address ≤ other ∧ other < address + values.length then
        values[other - address]
      else arena.byte other := by
  induction values generalizing arena address with
  | nil =>
      have hempty : ¬ (address ≤ other ∧ other < address + ([] : Bytes).length) := by
        intro h
        exact absurd h.2 (Nat.not_lt.mpr h.1)
      rw [dif_neg hempty, overlay]
  | cons value rest ih =>
      simp only [List.length_cons] at hfit
      have hsize : address + 1 + rest.length ≤ (arena.setByte address value).size := by
        rw [size_setByte]
        omega
      rw [overlay, ih _ _ hsize, byte_setByte]
      simp only [List.length_cons]
      by_cases hat : other = address
      · subst hat
        have hin : other < arena.size := by omega
        have hself : ¬ (other + 1 ≤ other ∧ other < other + 1 + rest.length) := by omega
        rw [dif_neg hself, if_pos ⟨rfl, hin⟩, dif_pos (by omega)]
        simp
      · by_cases hin : address + 1 ≤ other ∧ other < address + 1 + rest.length
        · have hcovered : address ≤ other ∧ other < address + (rest.length + 1) := by omega
          have hindex : other - address = (other - (address + 1)) + 1 := by omega
          simp [hin, hcovered, hindex]
        · have hout : ¬ (address ≤ other ∧ other < address + (rest.length + 1)) := by omega
          rw [dif_neg hin, dif_neg hout, if_neg fun h => hat h.1]

@[simp] theorem length_slice (arena : Arena) (address length : Nat) :
    (arena.slice address length).length = length := by
  simp [slice]

/-- What was written is read back. -/
theorem slice_overlay_self (arena : Arena) (address : Nat) (values : Bytes)
    (hfit : address + values.length ≤ arena.size) :
    (arena.overlay address values).slice address values.length = values := by
  apply List.ext_getElem
  · simp
  · intro index hleft hright
    have hcovered : address ≤ address + index ∧ address + index < address + values.length := by
      omega
    simp [slice, byte_overlay arena address (address + index) values hfit, hcovered]

theorem slice_overlay_of_disjoint (arena : Arena) (address start length : Nat) (values : Bytes)
    (hfit : address + values.length ≤ arena.size)
    (hdisjoint : start + length ≤ address ∨ address + values.length ≤ start) :
    (arena.overlay address values).slice start length = arena.slice start length := by
  apply List.map_congr_left
  intro index hindex
  have hlt : index < length := List.mem_range.mp hindex
  have hout : ¬ (address ≤ start + index ∧ start + index < address + values.length) := by omega
  rw [byte_overlay arena address (start + index) values hfit, dif_neg hout]

@[simp] theorem size_setWord (arena : Arena) (address value : Nat) :
    (arena.setWord address value).size = arena.size :=
  size_overlay ..

/-- A word reads back as it was written, reduced to 32 bits. -/
theorem word_setWord (arena : Arena) (address value : Nat) (hfit : address + 4 ≤ arena.size) :
    (arena.setWord address value).word address = value % wordCount := by
  have hself := slice_overlay_self arena address (Bytes.ofNat 4 value) (by simpa using hfit)
  rw [Bytes.length_ofNat] at hself
  rw [word, setWord, hself, Bytes.toNat_ofNat]
  rfl

theorem word_setWord_of_disjoint (arena : Arena) (address other value : Nat)
    (hfit : address + 4 ≤ arena.size)
    (hdisjoint : other + 4 ≤ address ∨ address + 4 ≤ other) :
    (arena.setWord address value).word other = arena.word other := by
  rw [word, setWord, slice_overlay_of_disjoint _ _ _ _ _ (by simpa using hfit)
    (by simpa using hdisjoint), word]

theorem word_lt (arena : Arena) (address : Nat) : arena.word address < wordCount := by
  have h := Bytes.toNat_lt (arena.slice address 4)
  rwa [length_slice] at h

end Arena

end CanNode
