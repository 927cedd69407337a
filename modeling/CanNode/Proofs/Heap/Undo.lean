import CanNode.Proofs.Heap.Canonical
import CanNode.Proofs.Heap.Replies
import CanNode.Proofs.Heap.Structure

/-!
# Freeing undoes allocating

A fragment that is freed right after it was cut off swallows the rest that was cut from it, and
goes back to the front of the bin it was taken from.  So fragments and bins are those from before
the allocation (`Heap.Sound.released_cut`), whatever was written to the block, and nothing that
the heap is asked later tells that there was one (`Ledger.Reachable.free_undoes_allocate`).
-/

namespace CanNode

namespace Chains

variable {chains : Chains} {f : Fragment} {bin : Fin binCount}

theorem erase_push (chains : Chains) (f : Fragment) : (chains.push f).erase f = chains := by
  cases hbin : Heap.binOf? f.size with
  | none => simp only [push, erase, hbin]
  | some bin =>
      rw [erase_eq hbin, push_eq hbin, Function.update_self, List.erase_cons_head,
        Function.update_idem, Function.update_eq_self]

theorem push_erase (hbin : Heap.binOf? f.size = some bin)
    (hhead : (chains bin).head? = some f.offset) : (chains.erase f).push f = chains := by
  rcases List.head?_eq_some_iff.mp hhead with ⟨rest, hrest⟩
  rw [push_eq hbin, erase_eq hbin, Function.update_self, Function.update_idem, hrest,
    List.erase_cons_head, ← hrest, Function.update_eq_self]

end Chains

namespace Heap

variable {heap : Heap} {left right : List Fragment} {x : Fragment} {chains : Chains} {size : Nat}

/-- A fragment that was cut from a free one is merged with the rest of it, and with nothing else,
as the neighbours of a free fragment are allocated. -/
theorem Sound.released_cut (hcoalesced : Coalesced (left ++ x :: right)) (hfree : x.used = false)
    (hle : size ≤ x.size) :
    released left ⟨x.offset, size, true⟩ (x.rest size ++ right)
      ((x.rest size).foldl Chains.push (chains.erase x)) = ⟨left, x, right, chains.erase x⟩ := by
  rcases List.isChain_append.mp hcoalesced with ⟨-, hchain, hborder⟩
  have hlast : ∀ g ∈ left.getLast?, g.used = true := fun g hg =>
    (hborder g hg x rfl).resolve_right (by simp [hfree])
  have hhead : ∀ g ∈ right.head?, g.used = true := fun g hg =>
    ((List.isChain_cons.mp hchain).1 g hg).resolve_left (by simp [hfree])
  rw [released, Focus.mergeBefore_eq_self hlast]
  obtain ⟨offset, whole, used⟩ := x
  cases hfree
  by_cases hwhole : whole = size
  · subst hwhole
    simp only [Fragment.rest, if_true, List.nil_append, List.foldl_nil]
    exact Focus.mergeAfter_eq_self hhead
  · simp only [Fragment.rest, if_neg hwhole, List.cons_append, List.nil_append, List.foldl_cons,
      List.foldl_nil, Focus.mergeAfter, Chains.erase_push, Bool.false_eq_true, if_false,
      Nat.add_sub_cancel' hle]

end Heap

namespace Ledger

/-- The heap has the fragments, the bins and the counters that it had before a block of `amount`
bytes was handed out and given back.  Only the highest marks may have risen. -/
structure Restores (before after : Ledger) (amount : Nat) : Prop where
  live : after.live = before.live
  walk : ∃ fragments,
    before.heap.walk = .ok (some fragments) ∧ after.heap.walk = .ok (some fragments)
  bins : ∃ chains : Chains, ∀ bin,
    before.heap.Visits .nextFree (before.heap.bins.get bin) (chains bin) ∧
      after.heap.Visits .nextFree (after.heap.bins.get bin) (chains bin)
  occupied : after.heap.occupied = before.heap.occupied
  usage : after.heap.usage = { before.heap.usage with
    peakAllocated := max before.heap.usage.peakAllocated
      (before.heap.usage.allocated + 2 ^ Nat.clog 2 (amount + headerSize))
    peakRequest := max before.heap.usage.peakRequest amount }

def Request.writes (block : Block) (parts : List (Nat × Bytes)) : List Request :=
  parts.map fun part => .write block part.1 part.2

variable {arena : Arena} {ledger after : Ledger} {fragments : List Fragment} {chains : Chains}
  {amount : Nat} {block : Block} {heap' : Heap} {parts : List (Nat × Bytes)}

namespace Sound

/-- Writing to a live block changes nothing but bytes. -/
theorem run_writes (h : ledger.Sound fragments chains) (hblock : block ∈ ledger.live)
    (hin : ∀ part ∈ parts, part.1 + part.2.length ≤ block.len) :
    ∃ after, ledger.run (Request.writes block parts) = .ok after ∧
      after.Sound fragments chains ∧ after.live = ledger.live ∧
      after.heap.usage = ledger.heap.usage := by
  induction parts generalizing ledger with
  | nil => exact ⟨ledger, rfl, h, rfl, rfl⟩
  | cons part rest ih =>
      obtain ⟨heap', hwrite, hsound, -, -, -, husage, -⟩ := h.heap.write
        (h.mem_fragments hblock) (h.positive block hblock) (hin part List.mem_cons_self)
      have hnext : Sound ⟨heap', ledger.live⟩ fragments chains := ⟨hsound, h.blocks, h.positive⟩
      obtain ⟨after, hrun, hafter, hlive, husage'⟩ :=
        ih hnext hblock fun other hother => hin other (List.mem_cons_of_mem part hother)
      refine ⟨after, ?_, hafter, hlive, husage'.trans husage⟩
      rw [Request.writes, List.map_cons, Ledger.run, perform_write hwrite]
      exact hrun

/-- A block that is given back as soon as it was handed out and written to. -/
theorem run_undo (h : ledger.Sound fragments chains)
    (hserved : ledger.heap.allocate amount = .ok (some block, heap'))
    (hin : ∀ part ∈ parts, part.1 + part.2.length ≤ block.len) :
    ∃ after, ledger.run (.allocate amount :: Request.writes block parts ++ [.free block]) =
        .ok after ∧ after.Sound fragments chains ∧ after.live = ledger.live ∧
      after.heap.usage = { ledger.heap.usage with
        peakAllocated := max ledger.heap.usage.peakAllocated
          (ledger.heap.usage.allocated + Heap.fragmentSize amount)
        peakRequest := max ledger.heap.usage.peakRequest amount } := by
  rcases h.heap.serves_iff.mp ⟨block, heap', hserved⟩ with ⟨hpos, hsome⟩
  rcases h.heap.exists_picks hpos hsome with ⟨bound, bin, x, hpicks⟩
  rcases List.append_of_mem hpicks.mem with ⟨left, right, rfl⟩
  obtain ⟨served, hallocate, hserved', husage, -⟩ := h.heap.allocate_of_picks hpos hpicks
  cases Except.ok.inj (hserved.symm.trans hallocate)
  have hlive := h.allocated hpicks.free hpos hserved'
  obtain ⟨written, hwrites, hwritten, hlive', husage'⟩ :=
    hlive.run_writes List.mem_cons_self hin
  have hmem : (⟨x.offset, amount⟩ : Block) ∈ written.live := hlive' ▸ List.mem_cons_self
  -- in address order the block stands where `x` stood
  change written.Sound (left ++ Block.fragment ⟨x.offset, amount⟩ :: _) _ at hwritten
  obtain ⟨freed, hrelease, hfreed, -⟩ := hwritten.heap.release rfl
  have hfree : written.heap.free ⟨x.offset, amount⟩ = .ok freed :=
    (hwritten.heap.free rfl rfl).trans hrelease
  have hsound := hwritten.freed hmem hfreed
  have hhead := (h.heap.shaped.binned.head bin).symm.trans hpicks.head
  rw [Block.fragment, Heap.Sound.released_cut h.heap.coalesced hpicks.free (hpicks.fits hpos),
    Chains.push_erase hpicks.classed hhead, hlive', List.erase_cons_head] at hsound
  refine ⟨⟨freed, ledger.live⟩, ?_, hsound, rfl, ?_⟩
  · have hfirst : ledger.perform (.allocate amount) =
        .ok ⟨heap', ⟨x.offset, amount⟩ :: ledger.live⟩ := perform_allocate hallocate
    have hlast := perform_free hfree
    rw [hlive', List.erase_cons_head] at hlast
    rw [run_append, Ledger.run, hfirst]
    simp only [bind, Except.bind, hwrites, Ledger.run, hlast]
  · have hallocated := hsound.heap.allocated.trans h.heap.allocated.symm
    have hcount := hsound.heap.live.trans h.heap.live.symm
    rw [Heap.usage_free hfree, hallocated, hcount, husage', husage]
    rfl

theorem restores (h : ledger.Sound fragments chains) (h' : after.Sound fragments chains)
    (hcapacity : 0 < ledger.heap.usage.capacity) (hlive : after.live = ledger.live)
    (husage : after.heap.usage = { ledger.heap.usage with
      peakAllocated := max ledger.heap.usage.peakAllocated
        (ledger.heap.usage.allocated + Heap.fragmentSize amount)
      peakRequest := max ledger.heap.usage.peakRequest amount }) :
    ledger.Restores after amount where
  live := hlive
  walk := by
    have hcapacity' : 0 < after.heap.usage.capacity := by
      rw [husage]
      exact hcapacity
    exact ⟨fragments, h.heap.walk_eq hcapacity, h'.heap.walk_eq hcapacity'⟩
  bins := by
    have hbinned := h.heap.shaped.binned
    have hbinned' := h'.heap.shaped.binned
    refine ⟨chains, fun bin => ?_⟩
    rw [hbinned.head bin, hbinned'.head bin]
    exact ⟨Heap.visits_of_linked (hbinned.addressable bin) (hbinned.linked bin),
      Heap.visits_of_linked (hbinned'.addressable bin) (hbinned'.linked bin)⟩
  occupied := h.heap.shaped.binned.occupied_eq h'.heap.shaped.binned
  usage := by rw [husage, Heap.fragmentSize_eq_two_pow]

end Sound

/-- Freeing a block right after it was allocated undoes the allocation, whatever was written to
it.  From then on every sequence of requests is answered as if there had been neither. -/
theorem Reachable.free_undoes_allocate (h : Reachable arena ledger)
    (hserved : ledger.heap.allocate amount = .ok (some block, heap'))
    (hin : ∀ part ∈ parts, part.1 + part.2.length ≤ block.len) :
    ∃ after, ledger.run (.allocate amount :: Request.writes block parts ++ [.free block]) =
        .ok after ∧ ledger.Restores after amount ∧
      ∀ requests, (after.Permits requests ↔ ledger.Permits requests) ∧
        (ledger.Permits requests → ∃ replies, ledger.replies requests = .ok replies ∧
          after.replies requests = .ok replies) := by
  rcases h.sound with ⟨⟨fragments, chains, hsound⟩, hcapacity, hpos⟩
  rcases hsound.run_undo hserved hin with ⟨after, hrun, hafter, hlive, husage⟩
  have halike : ledger.Alike after := by
    refine ⟨⟨fragments, chains, hsound, hafter⟩, hlive, ?_⟩
    rw [husage]
  exact ⟨after, hrun, hsound.restores hafter (hcapacity ▸ hpos) hlive husage, halike.replies⟩

private def spareHistory : List Request :=
  [.allocate 16, .allocate 16, .free ⟨0, 16⟩]

private def spareLedger : Ledger :=
  (replay (Arena.filled 500 0xAA) spareHistory).get (by decide +kernel)

private def overwritten : List (Nat × Bytes) :=
  [(0, [0xFF, 0xFF, 0xFF, 0xFF]), (4, List.replicate 16 1)]

private def laterRequests : List Request :=
  [.allocate 30, .allocate 1, .write ⟨64, 30⟩ 2 [7, 8], .free ⟨32, 16⟩, .allocate 400,
    .free ⟨64, 30⟩]

/-- A block is cut from a fragment, its rest goes to the bin that the fragment came from, and the
words that linked the fragment are overwritten. -/
theorem free_undoes_allocate_sample :
    Reachable (Arena.filled 500 0xAA) spareLedger ∧
      (∃ heap', spareLedger.heap.allocate 20 = .ok (some ⟨64, 20⟩, heap')) ∧
      (∀ part ∈ overwritten, part.1 + part.2.length ≤ 20) ∧
      ∃ after replies, spareLedger.run
          (.allocate 20 :: Request.writes ⟨64, 20⟩ overwritten ++ [.free ⟨64, 20⟩]) = .ok after ∧
        spareLedger.Restores after 20 ∧ after.Permits laterRequests ∧
        spareLedger.replies laterRequests = .ok replies ∧
        after.replies laterRequests = .ok replies := by
  have hreachable : Reachable (Arena.filled 500 0xAA) spareLedger := reachable_replay _
  have hanswer : spareLedger.answer (.allocate 20) = .ok (some ⟨64, 20⟩) := by decide +kernel
  rcases answer_allocate_iff.mp hanswer with ⟨heap', hserved⟩
  have hin : ∀ part ∈ overwritten, part.1 + part.2.length ≤ 20 := by decide
  have hpermits : spareLedger.Permits laterRequests := by decide +kernel
  obtain ⟨after, hrun, hrestores, hlater⟩ := hreachable.free_undoes_allocate hserved hin
  obtain ⟨replies, hreplies, hreplies'⟩ := (hlater laterRequests).2 hpermits
  exact ⟨hreachable, ⟨heap', hserved⟩, hin, after, replies, hrun, hrestores,
    (hlater laterRequests).1.mpr hpermits, hreplies, hreplies'⟩

end Ledger

end CanNode
