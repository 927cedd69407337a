import CanNode.Proofs.Heap.Ledger
import CanNode.Proofs.Heap.Usage

/-!
# What the user of a heap sees

The user of a heap sees the blocks that it is handed and the counters.  Two heaps with the same
fragments and the same bins may differ in the bytes of free fragments and of blocks; the user
cannot tell them apart.  `Ledger.Alike.perform` says so for one request, `Ledger.Alike.replies`
for every sequence of them.
-/

namespace CanNode

namespace Heap

variable {heap heap' : Heap} {fragments : List Fragment} {chains : Chains} {amount : Nat}
  {bound bin : Fin binCount} {x : Fragment}

namespace Binned

theorem bins_eq (h : heap.Binned chains) (h' : heap'.Binned chains) : heap'.bins = heap.bins :=
  h.listed.bins_eq h'.listed

theorem occupied_eq (h : heap.Binned chains) (h' : heap'.Binned chains) :
    heap'.occupied = heap.occupied :=
  h.listed.occupied_eq h'.listed

end Binned

theorem Picks.congr (h : heap.Picks fragments amount bound bin x) (hbins : heap'.bins = heap.bins)
    (hoccupied : heap'.occupied = heap.occupied) : heap'.Picks fragments amount bound bin x :=
  ⟨h.least, hoccupied ▸ h.scan, h.mem, hbins ▸ h.head, h.free, h.classed⟩

end Heap

namespace Ledger

/-- What the user of a heap sees after a request: the block it was handed, and the counters. -/
structure Reply where
  block : Option Block
  allocated : Nat
  live : Nat
  refused : Nat
deriving DecidableEq

def answer (ledger : Ledger) : Request → Except Fault (Option Block)
  | .allocate amount => Prod.fst <$> ledger.heap.allocate amount
  | .free _ => .ok none
  | .write _ _ _ => .ok none

theorem answer_allocate_iff {ledger : Ledger} {amount : Nat} {block : Option Block} :
    ledger.answer (.allocate amount) = .ok block ↔
      ∃ heap', ledger.heap.allocate amount = .ok (block, heap') := by
  rw [answer]
  cases ledger.heap.allocate amount with
  | error _ => simp [Functor.map, Except.map]
  | ok served => simp [Functor.map, Except.map, Prod.ext_iff]

def reply (ledger : Ledger) (block : Option Block) : Reply :=
  ⟨block, ledger.heap.usage.allocated, ledger.heap.usage.live, ledger.heap.usage.refused⟩

def replies (ledger : Ledger) : List Request → Except Fault (List Reply)
  | [] => .ok []
  | request :: rest => do
      let block ← ledger.answer request
      let next ← ledger.perform request
      let others ← next.replies rest
      return next.reply block :: others

/-- The heaps have the same fragments, the same bins in the same order, the same blocks handed
out and the same number of refusals behind them.  Bytes of payloads, and old bytes in free
fragments, need not be the same. -/
structure Alike (left right : Ledger) : Prop where
  sound : ∃ fragments chains, left.Sound fragments chains ∧ right.Sound fragments chains
  live : right.live = left.live
  refused : right.heap.usage.refused = left.heap.usage.refused

namespace Alike

variable {left right : Ledger}

theorem reply_eq (h : left.Alike right) (block : Option Block) :
    right.reply block = left.reply block := by
  rcases h.sound with ⟨fragments, chains, hleft, hright⟩
  have hallocated := hright.heap.allocated.trans hleft.heap.allocated.symm
  have hlive := hright.heap.live.trans hleft.heap.live.symm
  simp only [reply, hallocated, hlive, h.refused]

theorem allocate (h : left.Alike right) (amount : Nat) :
    ∃ answer leftHeap rightHeap, left.heap.allocate amount = .ok (answer, leftHeap) ∧
      right.heap.allocate amount = .ok (answer, rightHeap) ∧
      Alike ⟨leftHeap, answer.toList ++ left.live⟩ ⟨rightHeap, answer.toList ++ right.live⟩ := by
  rcases h.sound with ⟨fragments, chains, hleft, hright⟩
  rcases Nat.eq_zero_or_pos amount with hzero | hpos
  · exact ⟨none, left.heap, right.heap, if_pos hzero, if_pos hzero, h⟩
  obtain ⟨bound, bin, x, hpicks⟩ | hnone := hleft.heap.exists_picks_or_small hpos
  · rcases List.append_of_mem hpicks.mem with ⟨before, after, rfl⟩
    have hbinned := hleft.heap.shaped.binned
    have hbinned' := hright.heap.shaped.binned
    have hpicks' := hpicks.congr (hbinned.bins_eq hbinned') (hbinned.occupied_eq hbinned')
    obtain ⟨leftHeap, hrun, hsound, husage, -⟩ := hleft.heap.allocate_of_picks hpos hpicks
    obtain ⟨rightHeap, hrun', hsound', husage', -⟩ := hright.heap.allocate_of_picks hpos hpicks'
    refine ⟨_, leftHeap, rightHeap, hrun, hrun', ⟨_, _, hleft.allocated hpicks.free hpos hsound,
      hright.allocated hpicks.free hpos hsound'⟩, ?_, ?_⟩
    · exact congrArg (List.cons _) h.live
    · rw [husage, husage']
      exact h.refused
  · refine ⟨none, _, _, hleft.heap.allocate_none hpos hnone, hright.heap.allocate_none hpos hnone,
      ⟨fragments, chains, ⟨?_, hleft.blocks, hleft.positive⟩, ?_, hright.blocks, hright.positive⟩,
      h.live, congrArg (· + 1) h.refused⟩
    · exact hleft.heap.withUsage rfl rfl rfl
    · exact hright.heap.withUsage rfl rfl rfl

theorem free (h : left.Alike right) {block : Block} (hblock : block ∈ left.live) :
    ∃ leftHeap rightHeap, left.heap.free block = .ok leftHeap ∧
      right.heap.free block = .ok rightHeap ∧
      Alike ⟨leftHeap, left.live.erase block⟩ ⟨rightHeap, right.live.erase block⟩ := by
  rcases h.sound with ⟨fragments, chains, hleft, hright⟩
  have hblock' : block ∈ right.live := h.live ▸ hblock
  rcases List.append_of_mem (hleft.mem_fragments hblock) with ⟨before, after, rfl⟩
  obtain ⟨leftHeap, hrun, hsound, -⟩ := hleft.heap.release rfl
  obtain ⟨rightHeap, hrun', hsound', -⟩ := hright.heap.release rfl
  have hfree : left.heap.free block = .ok leftHeap := (hleft.heap.free rfl rfl).trans hrun
  have hfree' : right.heap.free block = .ok rightHeap := (hright.heap.free rfl rfl).trans hrun'
  refine ⟨leftHeap, rightHeap, hfree, hfree', ⟨_, _, hleft.freed hblock hsound,
    hright.freed hblock' hsound'⟩, ?_, ?_⟩
  · exact congrArg (List.erase · block) h.live
  · exact (Heap.refused_free hfree').trans (h.refused.trans (Heap.refused_free hfree).symm)

theorem write (h : left.Alike right) {block : Block} (hblock : block ∈ left.live) {start : Nat}
    {values : Bytes} (hin : start + values.length ≤ block.len) :
    ∃ leftHeap rightHeap, left.heap.write block start values = .ok leftHeap ∧
      right.heap.write block start values = .ok rightHeap ∧
      Alike ⟨leftHeap, left.live⟩ ⟨rightHeap, right.live⟩ := by
  rcases h.sound with ⟨fragments, chains, hleft, hright⟩
  have hmem := hleft.mem_fragments hblock
  have hpos := hleft.positive block hblock
  obtain ⟨leftHeap, hrun, hsound, -⟩ := hleft.heap.write hmem hpos hin
  obtain ⟨rightHeap, hrun', hsound', -⟩ := hright.heap.write hmem hpos hin
  refine ⟨leftHeap, rightHeap, hrun, hrun', ⟨fragments, chains, ⟨hsound, hleft.blocks,
    hleft.positive⟩, hsound', hright.blocks, hright.positive⟩, h.live, ?_⟩
  rw [Heap.usage_write hrun, Heap.usage_write hrun']
  exact h.refused

/-- One request has the same answer in both heaps, and leaves them alike. -/
theorem perform (h : left.Alike right) {request : Request}
    (hallowed : request.Allowed left.live) :
    ∃ block left' right', left.answer request = .ok block ∧ right.answer request = .ok block ∧
      left.perform request = .ok left' ∧ right.perform request = .ok right' ∧
      left'.Alike right' := by
  cases request with
  | allocate amount =>
      rcases h.allocate amount with ⟨answer, leftHeap, rightHeap, hrun, hrun', halike⟩
      exact ⟨answer, _, _, answer_allocate_iff.mpr ⟨_, hrun⟩, answer_allocate_iff.mpr ⟨_, hrun'⟩,
        perform_allocate hrun, perform_allocate hrun', halike⟩
  | free block =>
      rcases h.free hallowed with ⟨leftHeap, rightHeap, hrun, hrun', halike⟩
      exact ⟨none, _, _, rfl, rfl, perform_free hrun, perform_free hrun', halike⟩
  | write block start values =>
      rcases h.write hallowed.1 hallowed.2 with ⟨leftHeap, rightHeap, hrun, hrun', halike⟩
      exact ⟨none, _, _, rfl, rfl, perform_write hrun, perform_write hrun', halike⟩

/-- Both heaps permit the same requests, and the user sees the same of them. -/
theorem replies (h : left.Alike right) (requests : List Request) :
    (right.Permits requests ↔ left.Permits requests) ∧
      (left.Permits requests → ∃ replies, left.replies requests = .ok replies ∧
        right.replies requests = .ok replies) := by
  induction requests generalizing left right with
  | nil => exact ⟨Iff.rfl, fun _ => ⟨[], rfl, rfl⟩⟩
  | cons request rest ih =>
      by_cases hallowed : request.Allowed left.live
      · obtain ⟨block, left', right', hanswer, hanswer', hrun, hrun', halike⟩ :=
          h.perform hallowed
        obtain ⟨hpermits, hreplies⟩ := ih halike
        have hleft : left.Permits (request :: rest) ↔ left'.Permits rest := by
          simp [Permits, hallowed, hrun]
        have hright : right.Permits (request :: rest) ↔ right'.Permits rest := by
          simp [Permits, h.live, hallowed, hrun']
        rw [hleft, hright]
        refine ⟨hpermits, fun hrest => ?_⟩
        rcases hreplies hrest with ⟨others, hothers, hothers'⟩
        refine ⟨left'.reply block :: others, ?_, ?_⟩
        · rw [Ledger.replies, hanswer, hrun]
          simp only [bind, Except.bind, hothers]
          rfl
        · rw [Ledger.replies, hanswer', hrun', ← halike.reply_eq]
          simp only [bind, Except.bind, hothers']
          rfl
      · have hleft : ¬ left.Permits (request :: rest) := fun hpermits => hallowed hpermits.1
        have hright : ¬ right.Permits (request :: rest) := fun hpermits =>
          hallowed (h.live ▸ hpermits.1)
        exact ⟨iff_of_false hright hleft, fun hpermits => absurd hpermits hleft⟩

end Alike

end Ledger

end CanNode
