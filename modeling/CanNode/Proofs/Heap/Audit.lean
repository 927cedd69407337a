import CanNode.Proofs.Heap.Inspection

/-!
# Audits of a sound heap

What an audit checks holds of every sound heap (`Sound.audited`).  So its walk reads the fragments
of the heap back (`Sound.walk_eq`), and it finds nothing wrong (`Sound.audit_eq`).
-/

namespace CanNode

theorem Tiling.exists_cons {start stop : Nat} {fragments : List Fragment}
    (h : Tiling start fragments stop) (hlt : start < stop) :
    ∃ first rest, fragments = first :: rest ∧ first.offset = start := by
  cases fragments with
  | nil => exact absurd h (Nat.ne_of_lt hlt)
  | cons first rest => exact ⟨first, rest, rfl, h.1⟩

namespace Heap

variable {heap : Heap} {fragments : List Fragment} {chains : Chains} {bin : Fin binCount}

theorem Tiled.accepts (h : heap.Tiled fragments) {f : Fragment} (hf : f ∈ fragments) :
    heap.Accepts f where
  sized := by
    rw [get_eq (h.addressable hf), h.sized f hf]
  minimum := h.tiling.minimumFragment_le hf
  whole := h.tiling.dvd_size hf
  marked := by
    refine ⟨f.used.toNat, ?_, by simp⟩
    rw [get_eq (h.addressable hf), h.marked f hf]

theorem Shaped.suits {filed : List Fragment} (h : heap.Shaped fragments filed chains) {x : Nat}
    (hx : x ∈ chains bin) : heap.Suits bin x := by
  have haddr := h.binned.addressable bin x hx
  obtain ⟨f, hf, rfl, hfree, -⟩ := h.of_mem_chain hx
  refine ⟨?_, _, get_eq haddr .size, h.binned.classed bin _ hx⟩
  rw [get_eq haddr, h.tiled.marked f (h.mem hf), hfree]
  rfl

theorem Sound.audited (h : heap.Sound fragments chains) (hcapacity : 0 < heap.usage.capacity) :
    heap.Audited fragments chains := by
  have htiled := h.shaped.tiled
  have hbinned := h.shaped.binned
  have haddr : ∀ x ∈ offsets fragments, heap.Addressable x := by
    intro x hx
    rcases List.mem_map.mp hx with ⟨f, hf, rfl⟩
    exact htiled.addressable hf
  have hhead : (offsets fragments).head? = some 0 := by
    rcases htiled.tiling.exists_cons hcapacity with ⟨first, rest, rfl, hfirst⟩
    exact congrArg some hfirst
  constructor
  case visits => exact hhead ▸ visits_of_linked haddr htiled.linked
  case first =>
    rw [getLink_eq (haddr 0 (List.mem_of_mem_head? hhead)), htiled.linked.back_of_mem_head? hhead]
  case prev =>
    refine ((List.isChain_map _).mp htiled.linked.isChain_back).imp_of_mem_imp
      fun f g _ hg hback => ?_
    rw [getLink_eq (htiled.addressable hg), hback]
  case accepts => exact fun f hf => htiled.accepts hf
  case coalesced => exact h.coalesced
  case capacity => rw [htiled.tiling.stop_eq, Nat.zero_add]
  case allocated => exact h.allocated.symm
  case live => exact h.live.symm
  case binVisits =>
    intro bin
    rw [hbinned.head bin]
    exact visits_of_linked (hbinned.addressable bin) (hbinned.linked bin)
  case suits => exact fun bin x hx => h.shaped.suits hx
  case flagged =>
    intro bin
    rw [hbinned.flagged bin, hbinned.head bin, Option.isSome_iff_ne_none]

/-- The walk of a heap reads its fragments back. -/
theorem Sound.walk_eq (h : heap.Sound fragments chains) (hcapacity : 0 < heap.usage.capacity) :
    heap.walk = .ok (some fragments) :=
  walk_eq_some_iff.mpr (h.audited hcapacity).walked

/-- An audit finds nothing wrong with a sound heap, and does not fail. -/
theorem Sound.audit_eq (h : heap.Sound fragments chains) (hcapacity : 0 < heap.usage.capacity) :
    heap.audit = .ok true :=
  exists_audited_iff.mp ⟨fragments, chains, h.audited hcapacity⟩

end Heap

end CanNode
