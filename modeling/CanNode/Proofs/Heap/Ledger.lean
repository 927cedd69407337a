import CanNode.Proofs.Heap.Allocation
import CanNode.Proofs.Heap.Format
import CanNode.Proofs.Heap.Payload
import CanNode.Proofs.Heap.Release
import Mathlib.Data.List.Nodup

/-!
# Runs of a heap

A ledger is a heap with the blocks it has handed out and not got back.  Its user may allocate
any amount, free live blocks and write to them.  `Ledger.Sound.perform` says what one request
preserves, `Ledger.Sound.run` that no sequence of such requests fails and what it leaves.
-/

namespace CanNode

structure Ledger where
  heap : Heap
  live : List Block

namespace Ledger

inductive Request where
  | allocate (amount : Nat)
  | free (block : Block)
  | write (block : Block) (start : Nat) (values : Bytes)
deriving DecidableEq

/-- Requests name live blocks only, and writes stay inside them. -/
def Request.Allowed (live : List Block) : Request → Prop
  | .allocate _ => True
  | .free block => block ∈ live
  | .write block start values => block ∈ live ∧ start + values.length ≤ block.len

/-- The request frees a block or writes to it. -/
def Request.Touches (block : Block) : Request → Prop
  | .allocate _ => False
  | .free other => other = block
  | .write other _ _ => other = block

def perform (ledger : Ledger) : Request → Except Fault Ledger
  | .allocate amount => do
      let (answer, heap) ← ledger.heap.allocate amount
      return ⟨heap, answer.toList ++ ledger.live⟩
  | .free block => do
      let heap ← ledger.heap.free block
      return ⟨heap, ledger.live.erase block⟩
  | .write block start values => do
      let heap ← ledger.heap.write block start values
      return ⟨heap, ledger.live⟩

def run (ledger : Ledger) : List Request → Except Fault Ledger
  | [] => .ok ledger
  | request :: rest => do
      let next ← ledger.perform request
      next.run rest

/-- Every request of the sequence is allowed when its turn comes. -/
def Permits (ledger : Ledger) : List Request → Prop
  | [] => True
  | request :: rest =>
      request.Allowed ledger.live ∧ ∀ next, ledger.perform request = .ok next → next.Permits rest

/-- Ledgers that a freshly formatted arena leads to. -/
def Reachable (arena : Arena) (ledger : Ledger) : Prop :=
  ∃ heap requests, Heap.format arena = .ok heap ∧ Permits ⟨heap, []⟩ requests ∧
    run ⟨heap, []⟩ requests = .ok ledger

theorem Reachable.of_format {arena : Arena} {heap : Heap} (h : Heap.format arena = .ok heap) :
    Reachable arena ⟨heap, []⟩ :=
  ⟨heap, [], h, trivial, rfl⟩

instance decidableAllowed (live : List Block) : (request : Request) →
    Decidable (request.Allowed live)
  | .allocate _ => inferInstanceAs (Decidable True)
  | .free block => inferInstanceAs (Decidable (block ∈ live))
  | .write block start values =>
      inferInstanceAs (Decidable (block ∈ live ∧ start + values.length ≤ block.len))

instance decidablePermits : (ledger : Ledger) → (requests : List Request) →
    Decidable (ledger.Permits requests)
  | _, [] => .isTrue trivial
  | ledger, request :: rest =>
      match hrun : ledger.perform request with
      | .error _ => decidable_of_iff (request.Allowed ledger.live) (by simp [Permits, hrun])
      | .ok next =>
          have := decidablePermits next rest
          decidable_of_iff (request.Allowed ledger.live ∧ next.Permits rest)
            (by simp [Permits, hrun])

def replay (arena : Arena) (requests : List Request) : Option Ledger :=
  match Heap.format arena with
  | .error _ => none
  | .ok heap =>
      if Permits ⟨heap, []⟩ requests then (run ⟨heap, []⟩ requests).toOption else none

theorem permits_of_replay {arena : Arena} {requests : List Request} {heap : Heap}
    (h : (replay arena requests).isSome = true) (hformat : Heap.format arena = .ok heap) :
    Permits ⟨heap, []⟩ requests := by
  by_contra hpermits
  simp [replay, hformat, hpermits] at h

theorem reachable_replay {arena : Arena} {requests : List Request}
    (h : (replay arena requests).isSome = true) :
    Reachable arena ((replay arena requests).get h) := by
  cases hformat : Heap.format arena with
  | error _ => simp [replay, hformat] at h
  | ok heap =>
      have hpermits := permits_of_replay h hformat
      refine ⟨heap, requests, hformat, hpermits, ?_⟩
      cases hrun : run ⟨heap, []⟩ requests with
      | error _ => simp [replay, hformat, hpermits, hrun, Except.toOption] at h
      | ok last => simp [replay, hformat, hpermits, hrun, Except.toOption]

/-- The fragments of a ledger's heap are sound, and the allocated ones are those of the live
blocks. -/
structure Sound (ledger : Ledger) (fragments : List Fragment) (chains : Chains) : Prop where
  heap : ledger.heap.Sound fragments chains
  blocks : (fragments.filter (·.used)).Perm (ledger.live.map Block.fragment)
  positive : ∀ block ∈ ledger.live, 0 < block.len

/-- The block stays live, and its bytes stay what they are. -/
def Keeps (before after : Ledger) (block : Block) : Prop :=
  block ∈ after.live ∧ Heap.AgreesOn block.Covers before.heap after.heap

variable {ledger next : Ledger} {fragments : List Fragment} {chains : Chains} {block other : Block}
  {heap' : Heap}

theorem perform_allocate {amount : Nat} {answer : Option Block}
    (h : ledger.heap.allocate amount = .ok (answer, heap')) :
    ledger.perform (.allocate amount) = .ok ⟨heap', answer.toList ++ ledger.live⟩ := by
  simp [perform, h, bind, Except.bind, pure, Except.pure]

theorem perform_free (h : ledger.heap.free block = .ok heap') :
    ledger.perform (.free block) = .ok ⟨heap', ledger.live.erase block⟩ := by
  simp [perform, h, bind, Except.bind, pure, Except.pure]

theorem perform_write {start : Nat} {values : Bytes}
    (h : ledger.heap.write block start values = .ok heap') :
    ledger.perform (.write block start values) = .ok ⟨heap', ledger.live⟩ := by
  simp [perform, h, bind, Except.bind, pure, Except.pure]

theorem run_append (ledger : Ledger) (requests more : List Request) :
    ledger.run (requests ++ more) = (ledger.run requests).bind (run · more) := by
  induction requests generalizing ledger with
  | nil => rfl
  | cons request rest ih =>
      rw [List.cons_append, run, run]
      cases ledger.perform request with
      | error _ => rfl
      | ok next => exact ih next

namespace Sound

theorem mem_fragments (h : ledger.Sound fragments chains) (hblock : block ∈ ledger.live) :
    block.fragment ∈ fragments :=
  (List.mem_filter.mp (h.blocks.mem_iff.mpr (List.mem_map_of_mem hblock))).1

theorem nodup_fragments (h : ledger.Sound fragments chains) :
    (ledger.live.map Block.fragment).Nodup :=
  h.blocks.nodup_iff.mp (h.heap.shaped.tiled.tiling.nodup.of_map.filter _)

theorem nodup (h : ledger.Sound fragments chains) : ledger.live.Nodup :=
  h.nodup_fragments.of_map

theorem fragment_ne (h : ledger.Sound fragments chains) (hblock : block ∈ ledger.live)
    (hother : other ∈ ledger.live) (hne : block ≠ other) : block.fragment ≠ other.fragment :=
  fun heq => hne (List.inj_on_of_nodup_map h.nodup_fragments hblock hother heq)

/-- Live blocks do not overlap. -/
theorem apart (h : ledger.Sound fragments chains) (hblock : block ∈ ledger.live)
    (hother : other ∈ ledger.live) (hne : block ≠ other) :
    block.start + block.len ≤ other.start ∨ other.start + other.len ≤ block.start := by
  have happart := h.heap.shaped.tiled.tiling.apart (h.mem_fragments hblock)
    (h.mem_fragments hother) (h.fragment_ne hblock hother hne)
  have hfit := Heap.le_fragmentSize (h.positive block hblock)
  have hfit' := Heap.le_fragmentSize (h.positive other hother)
  simp only [Block.fragment] at happart
  simp only [Block.start]
  omega

theorem read_eq (h : ledger.Sound fragments chains) (hblock : block ∈ ledger.live) :
    ledger.heap.read block = .ok (ledger.heap.arena.slice block.start block.len) := by
  have hfits := h.heap.block_fits (h.mem_fragments hblock) (h.positive block hblock)
  exact Heap.read_eq (Nat.le_trans hfits.1 hfits.2)

end Sound

/-- What is left of a sound ledger after some of its blocks were touched. -/
structure Preserves (before after : Ledger) (touched : Block → Prop) : Prop where
  sound : ∃ fragments chains, after.Sound fragments chains
  capacity : after.heap.usage.capacity = before.heap.usage.capacity
  keeps : ∀ block ∈ before.live, ¬ touched block → before.Keeps after block

namespace Sound

private theorem agreesOn_covers (h : ledger.Sound fragments chains)
    (hblock : block ∈ ledger.live)
    (hagrees : Heap.AgreesOn block.fragment.Payload ledger.heap heap') :
    Heap.AgreesOn block.Covers ledger.heap heap' :=
  fun address hin => hagrees address (hin.payload (h.positive block hblock))

/-- A block that is cut from a free fragment joins the live ones. -/
theorem allocated {left right : List Fragment} {x : Fragment} {amount : Nat} {chains' : Chains}
    (h : ledger.Sound (left ++ x :: right) chains) (hfree : x.used = false) (hpos : 0 < amount)
    (hheap : heap'.Sound (left ++ ⟨x.offset, Heap.fragmentSize amount, true⟩ ::
      (x.rest (Heap.fragmentSize amount) ++ right)) chains') :
    Sound ⟨heap', ⟨x.offset, amount⟩ :: ledger.live⟩
      (left ++ ⟨x.offset, Heap.fragmentSize amount, true⟩ ::
        (x.rest (Heap.fragmentSize amount) ++ right)) chains' := by
  have hblocks := h.blocks
  rw [filter_used_of_free hfree] at hblocks
  refine ⟨hheap, ?_, fun block hblock => ?_⟩
  · rw [filter_used_of_used rfl fun g hg => Fragment.used_of_mem_rest hg]
    exact List.perm_middle.trans (hblocks.cons _)
  · rcases List.mem_cons.mp hblock with rfl | hblock
    · exact hpos
    · exact h.positive block hblock

/-- A block that is given back leaves the live ones. -/
theorem freed {left right : List Fragment} {chains' : Chains}
    (h : ledger.Sound (left ++ block.fragment :: right) chains) (hblock : block ∈ ledger.live)
    (hheap : heap'.Sound (Heap.Sound.released left block.fragment right chains).fragments chains') :
    Sound ⟨heap', ledger.live.erase block⟩
      (Heap.Sound.released left block.fragment right chains).fragments chains' := by
  refine ⟨hheap, ?_, fun other hother => h.positive other (List.mem_of_mem_erase hother)⟩
  have hblocks := h.blocks
  rw [List.filter_append, List.filter_cons_of_pos (by rfl)] at hblocks
  have herase := (List.perm_cons_erase hblock).map Block.fragment
  rw [Heap.Sound.filter_used_released, List.filter_append]
  -- the freed fragment is cancelled on both sides
  exact (List.perm_middle.symm.trans (hblocks.trans herase)).cons_inv

theorem allocate (h : ledger.Sound fragments chains) (amount : Nat) :
    ∃ answer heap', ledger.heap.allocate amount = .ok (answer, heap') ∧
      (∀ block ∈ answer, block.len = amount) ∧
      ledger.Preserves ⟨heap', answer.toList ++ ledger.live⟩ fun _ => False := by
  by_cases hzero : amount = 0
  · refine ⟨none, ledger.heap, if_pos hzero, (by simp),
      ⟨fragments, chains, h⟩, rfl, fun block hblock _ => ⟨hblock, fun _ _ => rfl⟩⟩
  have hpos : 0 < amount := Nat.pos_of_ne_zero hzero
  by_cases hsome : ∃ f ∈ fragments, f.used = false ∧ Heap.fragmentSize amount ≤ f.size
  · obtain ⟨left, x, right, heap', rfl, hfree, -, hrun, hsound, husage, hagrees⟩ :=
      h.heap.allocate_some hpos hsome
    refine ⟨some ⟨x.offset, amount⟩, heap', hrun, ?_,
      ⟨_, _, h.allocated hfree hpos hsound⟩, ?_,
      fun block hblock _ => ⟨List.mem_cons_of_mem _ hblock, h.agreesOn_covers hblock ?_⟩⟩
    · intro block hmem
      cases hmem
      rfl
    · rw [husage]
      rfl
    · refine hagrees _ ?_ rfl
      have hblocks := h.blocks
      rw [filter_used_of_free hfree] at hblocks
      have hmem := hblocks.mem_iff.mpr (List.mem_map_of_mem hblock)
      rw [← List.filter_append] at hmem
      exact (List.mem_filter.mp hmem).1
  · have hnone : ∀ f ∈ fragments, f.used = false → f.size < Heap.fragmentSize amount :=
      fun f hf hfree => Nat.lt_of_not_le fun hle => hsome ⟨f, hf, hfree, hle⟩
    refine ⟨none, _, h.heap.allocate_none hpos hnone, (by simp),
      ⟨fragments, chains, ?_, h.blocks, h.positive⟩, rfl,
      fun block hblock _ => ⟨hblock, fun _ _ => rfl⟩⟩
    exact h.heap.withUsage rfl rfl rfl

theorem free (h : ledger.Sound fragments chains) (hblock : block ∈ ledger.live) :
    ∃ heap', ledger.heap.free block = .ok heap' ∧
      heap'.usage.allocated + Heap.fragmentSize block.len = ledger.heap.usage.allocated ∧
      heap'.usage.live + 1 = ledger.heap.usage.live ∧
      ledger.Preserves ⟨heap', ledger.live.erase block⟩ fun other => block = other := by
  rcases List.append_of_mem (h.mem_fragments hblock) with ⟨left, right, rfl⟩
  obtain ⟨heap', hrun, hsound, hcapacity, hallocated, hlive, hagrees⟩ := h.heap.release rfl
  have hfree : ledger.heap.free block = .ok heap' := (h.heap.free rfl rfl).trans hrun
  refine ⟨heap', hfree, hallocated, hlive, ⟨_, _, h.freed hblock hsound⟩, hcapacity,
    fun other hother hne => ⟨?_, h.agreesOn_covers hother ?_⟩⟩
  · exact (List.mem_erase_of_ne fun heq => hne heq.symm).mpr hother
  · refine hagrees _ ?_ rfl
    have hmem := h.mem_fragments hother
    refine (List.mem_cons.mp (List.perm_middle.mem_iff.mp hmem)).resolve_left fun heq => ?_
    exact h.fragment_ne hother hblock (fun heq => hne heq.symm) heq

theorem write (h : ledger.Sound fragments chains) (hblock : block ∈ ledger.live) {start : Nat}
    {values : Bytes} (hin : start + values.length ≤ block.len) :
    ∃ heap', ledger.heap.write block start values = .ok heap' ∧
      ledger.Preserves ⟨heap', ledger.live⟩ fun other => block = other := by
  obtain ⟨heap', hrun, hsound, -, -, -, husage, hagrees, -⟩ :=
    h.heap.write (h.mem_fragments hblock) (h.positive block hblock) hin
  refine ⟨heap', hrun, ⟨fragments, chains, hsound, h.blocks, h.positive⟩,
    congrArg Usage.capacity husage, fun other hother hne => ⟨hother, fun address hhere => ?_⟩⟩
  refine hagrees address fun hthere => ?_
  have happart := h.apart hother hblock fun heq => hne heq.symm
  simp only [Block.Covers] at hhere hthere
  omega

/-- One request: it does not fail, and the ledger is sound after it. -/
theorem perform (h : ledger.Sound fragments chains) {request : Request}
    (hallowed : request.Allowed ledger.live) :
    ∃ next, ledger.perform request = .ok next ∧
      ledger.Preserves next fun block => request.Touches block := by
  cases request with
  | allocate amount =>
      rcases h.allocate amount with ⟨answer, heap', hrun, -, hpreserves⟩
      exact ⟨_, perform_allocate hrun, hpreserves⟩
  | free block =>
      rcases h.free hallowed with ⟨heap', hrun, -, -, hpreserves⟩
      exact ⟨_, perform_free hrun, hpreserves⟩
  | write block start values =>
      rcases h.write hallowed.1 hallowed.2 with ⟨heap', hrun, hpreserves⟩
      exact ⟨_, perform_write hrun, hpreserves⟩

/-- A whole run: it does not fail, and what it does not touch stays as it was. -/
theorem run (h : ledger.Sound fragments chains) {requests : List Request}
    (hpermits : ledger.Permits requests) :
    ∃ next, ledger.run requests = .ok next ∧
      ledger.Preserves next fun block => ∃ request ∈ requests, request.Touches block := by
  induction requests generalizing ledger fragments chains with
  | nil =>
      exact ⟨ledger, rfl, ⟨fragments, chains, h⟩, rfl,
        fun block hblock _ => ⟨hblock, fun _ _ => rfl⟩⟩
  | cons request rest ih =>
      rcases hpermits with ⟨hallowed, hrest⟩
      obtain ⟨middle, hrun, ⟨fragments', chains', hmiddle⟩, hcapacity, hkeeps⟩ :=
        h.perform hallowed
      rcases ih hmiddle (hrest middle hrun) with ⟨next, hrun', hsound, hcapacity', hkeeps'⟩
      refine ⟨next, ?_, hsound, hcapacity'.trans hcapacity, fun block hblock huntouched => ?_⟩
      · rw [Ledger.run, hrun]
        exact hrun'
      · obtain ⟨hlive, hagrees⟩ := hkeeps block hblock fun htouches =>
          huntouched ⟨request, List.mem_cons_self, htouches⟩
        obtain ⟨hlive', hagrees'⟩ := hkeeps' block hlive fun ⟨other, hother, htouches⟩ =>
          huntouched ⟨other, List.mem_cons_of_mem request hother, htouches⟩
        exact ⟨hlive', hagrees.trans hagrees'⟩

end Sound

/-- Every run of allowed requests from a formatted arena succeeds and leads to a sound ledger. -/
theorem sound_run {arena : Arena} (hmin : minimumFragment ≤ arena.size)
    (hmax : arena.size ≤ noLink) :
    ∃ heap, Heap.format arena = .ok heap ∧ ∀ requests, Permits ⟨heap, []⟩ requests →
      ∃ ledger, Ledger.run ⟨heap, []⟩ requests = .ok ledger ∧
        (∃ fragments chains, ledger.Sound fragments chains) ∧
        ledger.heap.usage.capacity = Heap.usable arena ∧ 0 < Heap.usable arena := by
  rcases Heap.format_sound hmin hmax with ⟨heap, hformat, hheap, -, husage⟩
  have hsound : Sound ⟨heap, []⟩ _ _ :=
    ⟨hheap, List.Perm.refl _, fun block hblock => by cases hblock⟩
  refine ⟨heap, hformat, fun requests hpermits => ?_⟩
  rcases hsound.run hpermits with ⟨ledger, hrun, hpreserves⟩
  refine ⟨ledger, hrun, hpreserves.sound, ?_, ?_⟩
  · exact hpreserves.capacity.trans (congrArg Usage.capacity husage)
  · exact Nat.lt_of_lt_of_le (by decide) (Heap.minimumFragment_le_usable hmin)

theorem Reachable.sound {arena : Arena} (h : Reachable arena ledger) :
    (∃ fragments chains, ledger.Sound fragments chains) ∧
      ledger.heap.usage.capacity = Heap.usable arena ∧ 0 < Heap.usable arena := by
  rcases h with ⟨heap, requests, hformat, hpermits, hrun⟩
  rcases Heap.bounds_of_format hformat with ⟨hmin, hmax⟩
  rcases sound_run hmin hmax with ⟨heap', hformat', hruns⟩
  obtain rfl : heap = heap' := Except.ok.inj (hformat.symm.trans hformat')
  rcases hruns requests hpermits with ⟨ledger', hrun', hsound⟩
  obtain rfl : ledger = ledger' := Except.ok.inj (hrun.symm.trans hrun')
  exact hsound

end Ledger

end CanNode
