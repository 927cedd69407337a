import CanNode.Proofs.Heap.Audit
import CanNode.Proofs.Heap.Ledger

/-!
# The structure of a heap in use

`Ledger.Structured` spells out, in terms of what can be read from the heap, how headers, bins,
mask and counters fit each other and the live blocks.  `Ledger.run_structured` says that every
run from a formatted arena leads to such a state.
-/

namespace CanNode

namespace Linked

variable {forth back : Nat → Option Nat} {nodes : List Nat}

/-- In a whole list one link undoes the other. -/
theorem back_eq_iff (h : Linked forth back none nodes none) {x y : Nat} (hx : x ∈ nodes)
    (hy : y ∈ nodes) : back y = some x ↔ forth x = some y := by
  constructor
  · intro hback
    rcases List.append_of_mem hy with ⟨left, right, rfl⟩
    rcases append_iff.mp h with ⟨hleft, hlast, -⟩
    rw [Option.or_none] at hlast
    rw [hback] at hlast
    rcases left.eq_nil_or_concat with rfl | ⟨init, last, rfl⟩
    · cases hlast
    · rw [List.concat_eq_append] at hleft hlast
      rw [List.getLast?_concat] at hlast
      cases hlast
      rcases append_iff.mp hleft with ⟨-, -, hforth, -⟩
      exact hforth
  · intro hforth
    rcases List.append_of_mem hx with ⟨left, right, rfl⟩
    rcases append_iff.mp h with ⟨-, -, hhead, hright⟩
    rw [Option.or_none] at hhead
    rw [hforth] at hhead
    cases right with
    | nil => cases hhead
    | cons first rest =>
        cases hhead
        exact hright.1

end Linked

namespace Heap

variable {heap : Heap} {fragments : List Fragment} {chains : Chains}

theorem getLink_eq_iff {forth back : Field} {nodes : List Nat}
    (haddr : ∀ x ∈ nodes, heap.Addressable x)
    (h : Linked (heap.linkAt forth) (heap.linkAt back) none nodes none) {x y : Nat}
    (hx : x ∈ nodes) (hy : y ∈ nodes) :
    heap.getLink y back = .ok (some x) ↔ heap.getLink x forth = .ok (some y) := by
  rw [getLink_eq (haddr x hx), getLink_eq (haddr y hy), Except.ok.injEq, Except.ok.injEq]
  exact h.back_eq_iff hx hy

/-- A fragment leads to the one that begins where it ends. -/
theorem Tiled.linkAt_next (h : heap.Tiled fragments) {f : Fragment} (hf : f ∈ fragments) :
    heap.linkAt .next f.offset =
      if f.offset + f.size = heap.usage.capacity then none else some (f.offset + f.size) := by
  rcases List.append_of_mem hf with ⟨left, right, rfl⟩
  rcases h.tiling.middle with ⟨-, -, -, hright⟩
  rw [h.linkAt_eq.2]
  cases right with
  | nil => exact (if_pos hright).symm
  | cons g rest =>
      rcases hright with ⟨hoffset, hpos, -, hrest⟩
      have hle := hrest.le
      rw [if_neg (by omega), ← hoffset]
      rfl

end Heap

namespace Ledger

/-- The state of a heap of `capacity` usable bytes whose user holds the live blocks.
`fragments` are all of its fragments in address order, and `chains` the fragments of every bin
in the order of the bin. -/
structure Structured (ledger : Ledger) (capacity : Nat) (fragments : List Fragment)
    (chains : Chains) : Prop where
  visits : ledger.heap.Visits .next (some 0) (offsets fragments)
  tiling : Tiling 0 fragments capacity
  size : ∀ f ∈ fragments, ledger.heap.get f.offset .size = .ok f.size
  next : ∀ f ∈ fragments, ledger.heap.getLink f.offset .next =
    .ok (if f.offset + f.size = capacity then none else some (f.offset + f.size))
  first : ledger.heap.getLink 0 .prev = .ok none
  prev : ∀ f ∈ fragments, ∀ g ∈ fragments,
    ledger.heap.getLink g.offset .prev = .ok (some f.offset) ↔
      ledger.heap.getLink f.offset .next = .ok (some g.offset)
  coalesced : Coalesced fragments
  used : ∀ f ∈ fragments, ledger.heap.get f.offset .used = .ok (if f.used then 1 else 0)
  /-- The allocated fragments are those of the live blocks, each of the least power of two that
  holds the header and the block. -/
  blocks : (fragments.filter (·.used)).Perm
    (ledger.live.map fun b => ⟨b.offset, 2 ^ Nat.clog 2 (b.len + headerSize), true⟩)
  binVisits : ∀ bin, ledger.heap.Visits .nextFree (ledger.heap.bins.get bin) (chains bin)
  binDistinct : ∀ bin, (chains bin).Nodup
  binFirst : ∀ bin, ∀ x ∈ ledger.heap.bins.get bin, ledger.heap.getLink x .prevFree = .ok none
  binPrev : ∀ bin, ∀ x ∈ chains bin, ∀ y ∈ chains bin,
    ledger.heap.getLink y .prevFree = .ok (some x) ↔ ledger.heap.getLink x .nextFree = .ok (some y)
  binned : ∀ bin x, x ∈ chains bin ↔ ∃ f ∈ fragments, f.offset = x ∧ f.used = false ∧
    Nat.log 2 (f.size / minimumFragment) = bin.val
  oneBin : ∀ f ∈ fragments, f.used = false → ∃! bin, f.offset ∈ chains bin
  flagged : ∀ bin, ledger.heap.occupied.isFlagged bin = true ↔ ledger.heap.bins.get bin ≠ none
  counted : ledger.heap.usage.capacity = capacity ∧
    ledger.heap.usage.allocated = Heap.totalSize (fragments.filter (·.used)) ∧
    ledger.heap.usage.live = ledger.live.length
  audited : ledger.heap.audit = .ok true

variable {ledger : Ledger} {fragments : List Fragment} {chains : Chains}

theorem Sound.structured (h : ledger.Sound fragments chains)
    (hcapacity : 0 < ledger.heap.usage.capacity) :
    ledger.Structured ledger.heap.usage.capacity fragments chains := by
  have htiled := h.heap.shaped.tiled
  have hbinned := h.heap.shaped.binned
  rcases htiled.tiling.exists_cons hcapacity with ⟨first, rest, hfragments, hfirst⟩
  have haddr : ∀ x ∈ offsets fragments, ledger.heap.Addressable x := by
    intro x hx
    rcases List.mem_map.mp hx with ⟨f, hf, rfl⟩
    exact htiled.addressable hf
  have hhead : (offsets fragments).head? = some 0 := by
    rw [hfragments, ← hfirst]
    rfl
  have hmem : ∀ f ∈ fragments, f.offset ∈ offsets fragments := fun f hf => List.mem_map_of_mem hf
  constructor
  case visits =>
    have hvisits := Heap.visits_of_linked haddr htiled.linked
    rwa [hhead] at hvisits
  case tiling => exact htiled.tiling
  case size =>
    intro f hf
    rw [Heap.get_eq (htiled.addressable hf), htiled.sized f hf]
  case next =>
    intro f hf
    rw [Heap.getLink_eq (htiled.addressable hf), htiled.linkAt_next hf]
  case first =>
    have hzero := haddr 0 (List.mem_of_mem_head? hhead)
    rw [Heap.getLink_eq hzero, htiled.linked.back_of_mem_head? hhead]
  case prev =>
    intro f hf g hg
    exact Heap.getLink_eq_iff haddr htiled.linked (hmem f hf) (hmem g hg)
  case coalesced => exact h.heap.coalesced
  case used =>
    intro f hf
    rw [Heap.get_eq (htiled.addressable hf), htiled.marked f hf]
    cases f.used <;> rfl
  case blocks =>
    have hround : Block.fragment =
        fun b => ⟨b.offset, 2 ^ Nat.clog 2 (b.len + headerSize), true⟩ := by
      funext b
      rw [Block.fragment, Heap.fragmentSize_eq_two_pow]
    exact hround ▸ h.blocks
  case binVisits =>
    intro bin
    rw [hbinned.head bin]
    exact Heap.visits_of_linked (hbinned.addressable bin) (hbinned.linked bin)
  case binDistinct => exact hbinned.distinct
  case binFirst =>
    intro bin x hx
    rw [hbinned.head bin] at hx
    have haddr := hbinned.addressable bin x (List.mem_of_mem_head? hx)
    rw [Heap.getLink_eq haddr, (hbinned.linked bin).back_of_mem_head? hx]
  case binPrev =>
    intro bin x hx y hy
    exact Heap.getLink_eq_iff (hbinned.addressable bin) (hbinned.linked bin) hx hy
  case binned =>
    intro bin x
    have hlog : ∀ f ∈ fragments, Heap.binOf? f.size = some bin ↔
        Nat.log 2 (f.size / minimumFragment) = bin.val := fun f hf =>
      Heap.binOf?_eq_some_iff_log (htiled.tiling.minimumFragment_le hf)
    rw [h.heap.shaped.filed bin x]
    constructor
    · intro hfiled
      rcases hfiled with ⟨f, hf, hoffset, hfree, hbin⟩
      exact ⟨f, hf, hoffset, hfree, (hlog f hf).mp hbin⟩
    · intro hfiled
      rcases hfiled with ⟨f, hf, hoffset, hfree, hbin⟩
      exact ⟨f, hf, hoffset, hfree, (hlog f hf).mpr hbin⟩
  case oneBin =>
    intro f hf hfree
    rcases htiled.exists_bin hf with ⟨bin, hbin⟩
    have hin := h.heap.shaped.filed.mem_chain hf hfree hbin
    exact ⟨bin, hin, fun other hother => hbinned.bin_unique hother hin⟩
  case flagged =>
    intro bin
    rw [hbinned.flagged bin, hbinned.head bin, Option.isSome_iff_ne_none]
  case counted =>
    have hlength := h.blocks.length_eq
    rw [List.length_map] at hlength
    exact ⟨rfl, h.heap.allocated, h.heap.live.trans hlength⟩
  case audited => exact h.heap.audit_eq hcapacity

/-- Whatever an arena holds, it can be formatted, and every run of allowed requests succeeds and
leads to a structured heap. -/
theorem run_structured (arena : Arena) (hmin : minimumFragment ≤ arena.size)
    (hmax : arena.size ≤ noLink) :
    ∃ heap, Heap.format arena = .ok heap ∧
      ∀ requests, Permits ⟨heap, []⟩ requests →
        ∃ ledger fragments chains, run ⟨heap, []⟩ requests = .ok ledger ∧
          ledger.Structured (arena.size / minimumFragment * minimumFragment) fragments chains := by
  rcases sound_run hmin hmax with ⟨heap, hformat, hruns⟩
  refine ⟨heap, hformat, fun requests hpermits => ?_⟩
  rcases hruns requests hpermits with ⟨ledger, hrun, ⟨fragments, chains, hsound⟩, hcapacity, hpos⟩
  have hstructured := hsound.structured (hcapacity ▸ hpos)
  rw [hcapacity] at hstructured
  exact ⟨ledger, fragments, chains, hrun, hstructured⟩

private def sampleRequests : List Request :=
  [.allocate 1, .allocate 20, .write ⟨32, 20⟩ 4 [0xFF, 0xFF], .free ⟨0, 1⟩]

/-- Two blocks on an arena of 128 bytes, one of which is written and the other freed. -/
theorem run_structured_sample :
    minimumFragment ≤ (Arena.filled 128 0xAA).size ∧ (Arena.filled 128 0xAA).size ≤ noLink ∧
      ∃ heap ledger fragments chains, Heap.format (Arena.filled 128 0xAA) = .ok heap ∧
        Permits ⟨heap, []⟩ sampleRequests ∧ run ⟨heap, []⟩ sampleRequests = .ok ledger ∧
        ledger.Structured 128 fragments chains := by
  have hmin : minimumFragment ≤ (Arena.filled 128 0xAA).size := by simp [minimumFragment]
  have hmax : (Arena.filled 128 0xAA).size ≤ noLink := by simp [noLink]
  rcases run_structured (Arena.filled 128 0xAA) hmin hmax with ⟨heap, hformat, hruns⟩
  have hpermits : Permits ⟨heap, []⟩ sampleRequests :=
    permits_of_replay (by decide +kernel) hformat
  rcases hruns _ hpermits with ⟨ledger, fragments, chains, hrun, hstructured⟩
  rw [Arena.size_filled] at hstructured
  exact ⟨hmin, hmax, heap, ledger, fragments, chains, hformat, hpermits, hrun, hstructured⟩

end Ledger

end CanNode
