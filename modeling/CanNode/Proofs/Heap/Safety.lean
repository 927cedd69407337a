import CanNode.Proofs.Heap.Audit
import CanNode.Proofs.Heap.Ledger

/-!
# No operation on a heap in use fails

`Ledger.Safe` collects what an operation needs from the heap it starts on: every word and every
payload it can reach lies in the arena, every class is that of a bin, and every sum and
difference it forms fits 32 bits or does not fall below zero.  `Ledger.run_safe` says that all of
it holds after every run from a formatted arena.
-/

namespace CanNode

namespace Heap

theorem totalSize_le_of_sublist {part fragments : List Fragment} (h : part.Sublist fragments) :
    totalSize part ≤ totalSize fragments := by
  induction h with
  | slnil => exact Nat.le_refl _
  | cons f _ ih => exact Nat.le_trans ih (Nat.le_add_left ..)
  | cons_cons f _ ih => exact Nat.add_le_add_left ih _

end Heap

namespace Ledger

/-- No operation that may come next fails, and none of its arithmetic leaves its range. -/
structure Safe (ledger : Ledger) (fragments : List Fragment) : Prop where
  allocate : ∀ amount, ∃ answer heap, ledger.heap.allocate amount = .ok (answer, heap) ∧
    heap.usage.allocated ≤ heap.usage.capacity ∧
    ∀ block ∈ answer, block.len = amount ∧ amount < wordCount
  free : ∀ block ∈ ledger.live, ∃ size heap, ledger.heap.get block.offset .size = .ok size ∧
    size ≤ ledger.heap.usage.allocated ∧ 0 < ledger.heap.usage.live ∧
    ledger.heap.free block = .ok heap
  read : ∀ block ∈ ledger.live, block.start + block.len ≤ ledger.heap.arena.size ∧
    ∃ bytes, ledger.heap.read block = .ok bytes ∧ bytes.length = block.len
  write : ∀ block ∈ ledger.live, ∀ start values, start + values.length ≤ block.len →
    ∃ heap, ledger.heap.write block start values = .ok heap
  audit : ∃ answer, ledger.heap.audit = .ok answer
  walk : ledger.heap.walk = .ok (some fragments)
  words : ∀ f ∈ fragments, ∀ field : Field,
    f.offset + field.offset + 4 ≤ ledger.heap.arena.size
  heads : ∀ bin, ∀ x ∈ ledger.heap.bins.get bin, ∃ f ∈ fragments, f.offset = x
  classes : ∀ f ∈ fragments, f.size / minimumFragment ≠ 0 ∧
    Nat.log2 (f.size / minimumFragment) < binCount
  requests : ∀ amount, 0 < amount → Heap.fragmentSize amount ≤ ledger.heap.usage.capacity →
    Heap.fragmentSize amount / minimumFragment ≠ 0 ∧
      Nat.log2 (Heap.fragmentSize amount / minimumFragment) < binCount
  /-- The fragment that a request is cut from is large enough, and the address of the cut fits a
  word. -/
  cuts : ∀ amount bound bin, 0 < amount → Heap.binOf? (Heap.fragmentSize amount) = some bound →
    ledger.heap.occupied.lowestFrom bound = some bin →
      ∃ f ∈ fragments, ledger.heap.bins.get bin = some f.offset ∧
        Heap.fragmentSize amount ≤ f.size ∧ f.offset + Heap.fragmentSize amount < wordCount
  sums : ∀ part : List Fragment, part.Sublist fragments → Heap.totalSize part < wordCount

variable {ledger : Ledger} {fragments : List Fragment} {chains : Chains} {block : Block}

namespace Sound

theorem allocated_le (h : ledger.Sound fragments chains) :
    ledger.heap.usage.allocated ≤ ledger.heap.usage.capacity := by
  have hstop := h.heap.shaped.tiled.tiling.stop_eq
  have hsub := Heap.totalSize_le_of_sublist (List.filter_sublist (p := (·.used)) (l := fragments))
  have hallocated := h.heap.allocated
  omega

theorem capacity_lt (h : ledger.Sound fragments chains) :
    ledger.heap.usage.capacity < wordCount := by
  have hwithin := h.heap.shaped.tiled.within
  have hbounded := h.heap.shaped.tiled.bounded
  simp only [noLink] at hbounded
  simp only [wordCount]
  omega

private theorem classed {size : Nat} {bin : Fin binCount} (h : Heap.binOf? size = some bin) :
    size / minimumFragment ≠ 0 ∧ Nat.log2 (size / minimumFragment) < binCount := by
  unfold Heap.binOf? at h
  split at h
  · assumption
  · cases h

theorem safe (h : ledger.Sound fragments chains) (hcapacity : 0 < ledger.heap.usage.capacity) :
    ledger.Safe fragments := by
  have htiled := h.heap.shaped.tiled
  have hstop := htiled.tiling.stop_eq
  have hlimit := h.capacity_lt
  constructor
  case allocate =>
    intro amount
    rcases h.allocate amount with ⟨answer, heap', hrun, hlen, ⟨fragments', chains', hsound⟩, -, -⟩
    refine ⟨answer, heap', hrun, hsound.allocated_le, fun block hblock => ⟨hlen block hblock, ?_⟩⟩
    have hlive : block ∈ answer.toList ++ ledger.live := by simp [Option.mem_def.mp hblock]
    have hfits := hsound.heap.block_fits (hsound.mem_fragments hlive) (hsound.positive block hlive)
    have hbounded := hsound.heap.shaped.tiled.bounded
    have hamount := hlen block hblock
    simp only [Block.start, headerSize, noLink, wordCount] at *
    omega
  case free =>
    intro block hblock
    rcases h.free hblock with ⟨heap', hrun, hallocated, hlive, -⟩
    have hmem := h.mem_fragments hblock
    have hsize := Heap.get_eq (htiled.addressable hmem) .size
    rw [htiled.sized _ hmem] at hsize
    exact ⟨_, heap', hsize, Nat.le.intro (Nat.add_comm .. ▸ hallocated), by omega, hrun⟩
  case read =>
    intro block hblock
    have hfits := h.heap.block_fits (h.mem_fragments hblock) (h.positive block hblock)
    exact ⟨Nat.le_trans hfits.1 hfits.2, _, h.read_eq hblock, Arena.length_slice ..⟩
  case write =>
    intro block hblock start values hin
    rcases h.write hblock hin with ⟨heap', hrun, -⟩
    exact ⟨heap', hrun⟩
  case audit => exact ⟨true, h.heap.audit_eq hcapacity⟩
  case walk => exact h.heap.walk_eq hcapacity
  case words =>
    intro f hf field
    exact (htiled.addressable hf).fits field
  case heads =>
    intro bin x hx
    rw [h.heap.shaped.binned.head bin] at hx
    rcases h.heap.shaped.of_mem_chain (List.mem_of_mem_head? hx) with ⟨f, hf, hoffset, -, -⟩
    exact ⟨f, hf, hoffset⟩
  case classes =>
    intro f hf
    rcases htiled.exists_bin hf with ⟨bin, hbin⟩
    exact classed hbin
  case requests =>
    intro amount hpos hle
    rcases h.heap.exists_bound hpos hle with ⟨bin, hbin⟩
    exact classed hbin
  case cuts =>
    intro amount bound bin hpos hbound hscan
    rcases h.heap.of_lowestFrom hpos hbound hscan with ⟨f, hf, hhead, -, hfits⟩
    have hbounds := htiled.tiling.bounds hf
    exact ⟨f, hf, hhead, hfits, by omega⟩
  case sums =>
    intro part hpart
    have hle := Heap.totalSize_le_of_sublist hpart
    omega

end Sound

/-- Whatever an arena holds, it can be formatted, every run of allowed requests succeeds, and the
operation after it is safe as well. -/
theorem run_safe (arena : Arena) (hmin : minimumFragment ≤ arena.size)
    (hmax : arena.size ≤ noLink) :
    ∃ heap, Heap.format arena = .ok heap ∧
      ∀ requests, Permits ⟨heap, []⟩ requests →
        ∃ ledger fragments, run ⟨heap, []⟩ requests = .ok ledger ∧ ledger.Safe fragments := by
  rcases sound_run hmin hmax with ⟨heap, hformat, hruns⟩
  refine ⟨heap, hformat, fun requests hpermits => ?_⟩
  rcases hruns requests hpermits with ⟨ledger, hrun, ⟨fragments, chains, hsound⟩, hcapacity, hpos⟩
  exact ⟨ledger, fragments, hrun, hsound.safe (hcapacity ▸ hpos)⟩

/-- A request for more than a word can count, on a heap that one block takes up. -/
theorem run_safe_sample :
    minimumFragment ≤ (Arena.filled 70 0xAA).size ∧ (Arena.filled 70 0xAA).size ≤ noLink ∧
      ∃ heap ledger fragments, Heap.format (Arena.filled 70 0xAA) = .ok heap ∧
        run ⟨heap, []⟩ [.allocate 40, .allocate (2 ^ 64 - 1)] = .ok ledger ∧
        ledger.Safe fragments := by
  have hmin : minimumFragment ≤ (Arena.filled 70 0xAA).size := by simp [minimumFragment]
  have hmax : (Arena.filled 70 0xAA).size ≤ noLink := by simp [noLink]
  rcases run_safe (Arena.filled 70 0xAA) hmin hmax with ⟨heap, hformat, hruns⟩
  obtain ⟨ledger, fragments, hrun, hsafe⟩ := hruns [.allocate 40, .allocate (2 ^ 64 - 1)]
    ⟨trivial, fun _ _ => ⟨trivial, fun _ _ => trivial⟩⟩
  exact ⟨hmin, hmax, heap, ledger, fragments, hformat, hrun, hsafe⟩

end Ledger

end CanNode
