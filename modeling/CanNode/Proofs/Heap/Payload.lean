import CanNode.Proofs.Heap.Shape

/-!
# Payloads

A block covers addresses of its fragment behind the header.  Storing bytes in a block changes
what the block reads as, and nothing outside the addresses it covers: no header, no link of a
free fragment and no byte of another block.
-/

namespace CanNode

namespace Block

/-- The fragment that a block was cut from. -/
def fragment (block : Block) : Fragment :=
  ⟨block.offset, Heap.fragmentSize block.len, true⟩

def Covers (block : Block) (address : Nat) : Prop :=
  block.start ≤ address ∧ address < block.start + block.len

theorem Covers.payload {block : Block} {address : Nat} (h : block.Covers address)
    (hpos : 0 < block.len) : block.fragment.Payload address := by
  have hfit := Heap.le_fragmentSize hpos
  rcases h with ⟨hlow, hhigh⟩
  simp only [start] at hlow hhigh
  simp only [Fragment.Payload, fragment]
  omega

end Block

namespace Arena

theorem slice_append (arena : Arena) (address front back : Nat) :
    arena.slice address (front + back) =
      arena.slice address front ++ arena.slice (address + front) back := by
  simp only [slice, List.range_add, List.map_append, List.map_map]
  refine congrArg _ (List.map_congr_left fun index _ => ?_)
  simp only [Function.comp_apply, Nat.add_assoc]

theorem slice_overlay_within (arena : Arena) (address start length : Nat) (values : Bytes)
    (hfit : address + length ≤ arena.size) (hin : start + values.length ≤ length) :
    (arena.overlay (address + start) values).slice address length =
      (arena.slice address length).take start ++ values ++
        (arena.slice address length).drop (start + values.length) := by
  rcases Nat.exists_eq_add_of_le hin with ⟨back, rfl⟩
  have hvalues : address + start + values.length ≤ arena.size := by omega
  have hself := slice_overlay_self arena (address + start) values hvalues
  have hfront := slice_overlay_of_disjoint arena (address + start) address start values hvalues
    (.inl (Nat.le_refl _))
  have hback := slice_overlay_of_disjoint arena (address + start)
    (address + (start + values.length)) back values hvalues (.inr (by omega))
  have htake : (arena.slice address (start + values.length + back)).take start =
      arena.slice address start := by
    rw [Nat.add_assoc, slice_append, List.take_left' (by simp)]
  have hdrop : (arena.slice address (start + values.length + back)).drop (start + values.length) =
      arena.slice (address + (start + values.length)) back := by
    rw [slice_append, List.drop_left' (by simp)]
  rw [htake, hdrop, slice_append, slice_append, hself, hfront, hback]

end Arena

namespace Heap

variable {heap heap' : Heap} {fragments : List Fragment} {chains : Chains} {block : Block}
  {start : Nat} {values : Bytes}

theorem read_eq (hfit : block.start + block.len ≤ heap.arena.size) :
    heap.read block = .ok (heap.arena.slice block.start block.len) :=
  if_pos hfit

theorem AgreesOn.slice_eq (h : AgreesOn block.Covers heap heap') :
    heap'.arena.slice block.start block.len = heap.arena.slice block.start block.len := by
  refine List.map_congr_left fun index hindex => h _ ⟨Nat.le_add_right .., ?_⟩
  exact Nat.add_lt_add_left (List.mem_range.mp hindex) _

/-- A write that fits its block succeeds.  It replaces the bytes it covers. -/
theorem write_eq (hfit : block.start + block.len ≤ heap.arena.size)
    (hin : start + values.length ≤ block.len) :
    ∃ heap', heap.write block start values = .ok heap' ∧
      heap'.arena.size = heap.arena.size ∧ heap'.bins = heap.bins ∧
      heap'.occupied = heap.occupied ∧ heap'.usage = heap.usage ∧
      AgreesOn (fun address => ¬ block.Covers address) heap heap' ∧
      heap'.arena.slice block.start block.len =
        (heap.arena.slice block.start block.len).take start ++ values ++
          (heap.arena.slice block.start block.len).drop (start + values.length) := by
  have hvalues : block.start + start + values.length ≤ heap.arena.size := by omega
  refine ⟨{ heap with arena := heap.arena.overlay (block.start + start) values }, ?_,
    Arena.size_overlay .., rfl, rfl, rfl, fun address hout => ?_,
    Arena.slice_overlay_within _ _ _ _ _ hfit hin⟩
  · rw [write, if_neg (Nat.not_lt.mpr hfit), if_neg (Nat.not_lt.mpr hin)]
  · refine (Arena.byte_overlay _ _ address _ hvalues).trans (dif_neg fun hcovered => hout ?_)
    exact ⟨by omega, by omega⟩

/-- A block that was filled is read as what it was filled with. -/
theorem read_of_write (hlength : values.length = block.len)
    (hwrite : heap.write block 0 values = .ok heap') : heap'.read block = .ok values := by
  unfold write at hwrite
  split at hwrite
  · cases hwrite
  next hfit =>
  split at hwrite
  · cases hwrite
  · cases hwrite
    have hfit : block.start + values.length ≤ heap.arena.size := by omega
    simp only [read, Arena.size_overlay, Nat.add_zero, ← hlength, if_pos hfit,
      Arena.slice_overlay_self _ _ _ hfit]

namespace Sound

variable (h : heap.Sound fragments chains) (hblock : block.fragment ∈ fragments)
  (hpos : 0 < block.len)

include h hblock hpos

theorem block_fits : block.start + block.len ≤ block.offset + fragmentSize block.len ∧
    block.offset + fragmentSize block.len ≤ heap.arena.size := by
  have hbounds := h.shaped.tiled.tiling.bounds hblock
  have hwithin := h.shaped.tiled.within
  have hround := le_fragmentSize hpos
  simp only [Block.fragment] at hbounds
  simp only [Block.start]
  omega

/-- No word that the heap keeps lies among the bytes of a block. -/
theorem wordAt_eq_of_agreesOn
    (hagrees : AgreesOn (fun address => ¬ block.Covers address) heap heap') {f : Fragment}
    (hf : f ∈ fragments) {field : Field} (hfield : field.InHeader ∨ f.used = false) :
    heap'.wordAt field f.offset = heap.wordAt field f.offset := by
  have hne : f ≠ block.fragment ∨ field.InHeader :=
    hfield.symm.imp_left fun hfree => Fragment.ne_of_used hfree rfl
  have hclear := h.shaped.tiled.clearOf hblock hf hne
  refine hagrees.wordAt_eq fun address hlow hhigh hcovers => ?_
  have hout := hclear address (hcovers.payload hpos)
  omega

/-- Storing bytes in a block leaves the heap sound. -/
theorem write (hin : start + values.length ≤ block.len) :
    ∃ heap', heap.write block start values = .ok heap' ∧ heap'.Sound fragments chains ∧
      heap'.arena.size = heap.arena.size ∧ heap'.bins = heap.bins ∧
      heap'.occupied = heap.occupied ∧ heap'.usage = heap.usage ∧
      AgreesOn (fun address => ¬ block.Covers address) heap heap' ∧
      heap'.arena.slice block.start block.len =
        (heap.arena.slice block.start block.len).take start ++ values ++
          (heap.arena.slice block.start block.len).drop (start + values.length) := by
  have hfits := h.block_fits hblock hpos
  obtain ⟨heap', hrun, hsize, hbins, hoccupied, husage, hagrees, hread⟩ :=
    write_eq (Nat.le_trans hfits.1 hfits.2) hin
  refine ⟨heap', hrun, ⟨?_, h.coalesced, husage ▸ h.allocated, husage ▸ h.live⟩, hsize, hbins,
    hoccupied, husage, hagrees, hread⟩
  exact h.shaped.congr hsize (congrArg Usage.capacity husage) hbins hoccupied
    fun f hf field hfield => h.wordAt_eq_of_agreesOn hblock hpos hagrees hf hfield

end Sound

end Heap

end CanNode
