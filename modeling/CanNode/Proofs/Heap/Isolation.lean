import CanNode.Proofs.Heap.Audit
import CanNode.Proofs.Heap.Ledger

/-!
# Live blocks are isolated

The bytes of a live block lie apart from everything the heap keeps in its arena and from all
other live blocks.  So a write through a block changes that block only, and a block reads as it
was last written until a request touches it.
-/

namespace CanNode

namespace Ledger

/-- Where the bytes of a block lie, among fragments and the other live blocks. -/
structure Placed (ledger : Ledger) (fragments : List Fragment) (block : Block) : Prop where
  own : ∃ f ∈ fragments, f.used = true ∧ f.offset = block.offset ∧
    block.start + block.len ≤ f.offset + f.size
  arena : block.start + block.len ≤ ledger.heap.arena.size
  blocks : ∀ other ∈ ledger.live, other ≠ block →
    block.start + block.len ≤ other.start ∨ other.start + other.len ≤ block.start
  headers : ∀ f ∈ fragments,
    block.start + block.len ≤ f.offset ∨ f.offset + headerSize ≤ block.start
  links : ∀ f ∈ fragments, f.used = false → ∀ field ∈ [Field.nextFree, .prevFree],
    block.start + block.len ≤ f.offset + field.offset ∨
      f.offset + field.offset + 4 ≤ block.start

/-- Two ledgers that differ in the bytes of one block at most. -/
structure DiffersOnlyIn (before after : Ledger) (fragments : List Fragment) (block : Block) :
    Prop where
  live : after.live = before.live
  bins : after.heap.bins = before.heap.bins
  occupied : after.heap.occupied = before.heap.occupied
  usage : after.heap.usage = before.heap.usage
  words : ∀ f ∈ fragments, ∀ field : Field, field.InHeader ∨ f.used = false →
    after.heap.get f.offset field = before.heap.get f.offset field
  walk : after.heap.walk = before.heap.walk
  blocks : ∀ other ∈ before.live, other ≠ block → after.heap.read other = before.heap.read other

/-- Every run that does not touch the block succeeds, and the block still reads as these bytes
after it. -/
def Retains (ledger : Ledger) (block : Block) (bytes : Bytes) : Prop :=
  ∀ requests, ledger.Permits requests → (∀ request ∈ requests, ¬ request.Touches block) →
    ∃ last, ledger.run requests = .ok last ∧ block ∈ last.live ∧
      last.heap.read block = .ok bytes

variable {ledger next : Ledger} {fragments : List Fragment} {chains : Chains} {block : Block}

namespace Sound

theorem placed (h : ledger.Sound fragments chains) (hblock : block ∈ ledger.live) :
    ledger.Placed fragments block := by
  have hmem := h.mem_fragments hblock
  have hfits := h.heap.block_fits hmem (h.positive block hblock)
  have hround := Heap.le_fragmentSize (h.positive block hblock)
  have htiling := h.heap.shaped.tiled.tiling
  have hstart : block.start = block.offset + headerSize := rfl
  refine ⟨⟨block.fragment, hmem, rfl, rfl, hfits.1⟩, Nat.le_trans hfits.1 hfits.2,
    fun other hother hne => h.apart hblock hother hne.symm, fun f hf => ?_, fun f hf hfree => ?_⟩
  · by_cases heq : f = block.fragment
    · rw [heq]
      exact .inr (Nat.le_refl _)
    · have happart := htiling.apart hf hmem heq
      have hmin := htiling.minimumFragment_le hf
      simp only [Block.fragment, headerSize, minimumFragment] at *
      omega
  · intro field _
    have hne : f ≠ block.fragment := Fragment.ne_of_used hfree rfl
    have happart := htiling.apart hf hmem hne
    have hmin := htiling.minimumFragment_le hf
    have hfield := field.offset_add_four_le
    simp only [Block.fragment, headerSize] at *
    omega

/-- A block that a run does not touch reads the same after it. -/
theorem retains (h : ledger.Sound fragments chains) (hblock : block ∈ ledger.live) :
    ledger.Retains block (ledger.heap.arena.slice block.start block.len) := by
  intro requests hpermits huntouched
  rcases h.run hpermits with ⟨last, hrun, ⟨fragments', chains', hlast⟩, -, hkeeps⟩
  obtain ⟨hlive, hagrees⟩ := hkeeps block hblock fun ⟨request, hrequest, htouches⟩ =>
    huntouched request hrequest htouches
  refine ⟨last, hrun, hlive, ?_⟩
  rw [hlast.read_eq hlive, hagrees.slice_eq]

/-- A write through a block changes that block only. -/
theorem write_differs (h : ledger.Sound fragments chains)
    (hcapacity : 0 < ledger.heap.usage.capacity) (hblock : block ∈ ledger.live) {start : Nat}
    {values : Bytes} (hin : start + values.length ≤ block.len) :
    ∃ next, ledger.perform (.write block start values) = .ok next ∧
      next.Sound fragments chains ∧ ledger.DiffersOnlyIn next fragments block ∧
      next.heap.arena.slice block.start block.len =
        (ledger.heap.arena.slice block.start block.len).take start ++ values ++
          (ledger.heap.arena.slice block.start block.len).drop (start + values.length) := by
  have hmem := h.mem_fragments hblock
  have hpos := h.positive block hblock
  obtain ⟨heap', hrun, hsound, hsize, hbins, hoccupied, husage, hagrees, hread⟩ :=
    h.heap.write hmem hpos hin
  have hnext : Sound ⟨heap', ledger.live⟩ fragments chains := ⟨hsound, h.blocks, h.positive⟩
  refine ⟨_, perform_write hrun, hnext, ⟨rfl, hbins, hoccupied, husage, ?_, ?_, ?_⟩, hread⟩
  · intro f hf field hfield
    rw [Heap.get_eq (hsound.shaped.tiled.addressable hf),
      Heap.get_eq (h.heap.shaped.tiled.addressable hf),
      h.heap.wordAt_eq_of_agreesOn hmem hpos hagrees hf hfield]
  · rw [h.heap.walk_eq hcapacity, hsound.walk_eq (husage ▸ hcapacity)]
  · intro other hother hne
    have hcovers : Heap.AgreesOn other.Covers ledger.heap heap' := by
      refine fun address hhere => hagrees address fun hthere => ?_
      have happart := h.apart hother hblock hne
      simp only [Block.Covers] at hhere hthere
      omega
    rw [hnext.read_eq hother, h.read_eq hother, hcovers.slice_eq]

end Sound

/-- A live block has its bytes to itself: what it reads as is what was last written to it, and
writing to it changes nothing else. -/
theorem Reachable.isolated {arena : Arena} (h : Reachable arena ledger) :
    ledger.live.Nodup ∧ ∃ fragments, ledger.heap.walk = .ok (some fragments) ∧
      ∀ block ∈ ledger.live, ledger.Placed fragments block ∧
        ∃ bytes, ledger.heap.read block = .ok bytes ∧ bytes.length = block.len ∧
          ledger.Retains block bytes ∧
          ∀ start values, start + values.length ≤ block.len →
            ∃ next, ledger.perform (.write block start values) = .ok next ∧
              ledger.DiffersOnlyIn next fragments block ∧
              next.Retains block
                (bytes.take start ++ values ++ bytes.drop (start + values.length)) := by
  rcases h.sound with ⟨⟨fragments, chains, hsound⟩, hcapacity, hpos⟩
  rw [← hcapacity] at hpos
  refine ⟨hsound.nodup, fragments, hsound.heap.walk_eq hpos, fun block hblock =>
    ⟨hsound.placed hblock, _, hsound.read_eq hblock, Arena.length_slice .., hsound.retains hblock,
      fun start values hin => ?_⟩⟩
  rcases hsound.write_differs hpos hblock hin with ⟨next, hrun, hnext, hdiffers, hslice⟩
  refine ⟨next, hrun, hdiffers, ?_⟩
  rw [← hslice]
  exact hnext.retains (hdiffers.live ▸ hblock)

private def sampleHistory : List Request :=
  [.allocate 8, .allocate 16, .write ⟨32, 16⟩ 4 [0xFF, 0xFF], .allocate 12, .free ⟨0, 8⟩]

private def sampleLedger : Ledger :=
  (replay (Arena.filled 96 0xAA) sampleHistory).get (by decide +kernel)

/-- Two live blocks behind a hole that a third one left. -/
theorem isolated_sample : Reachable (Arena.filled 96 0xAA) sampleLedger ∧
    sampleLedger.live = [⟨64, 12⟩, ⟨32, 16⟩] ∧ ∃ fragments,
      sampleLedger.heap.walk = .ok (some fragments) ∧
      ∀ block ∈ sampleLedger.live, sampleLedger.Placed fragments block := by
  have hreach : Reachable (Arena.filled 96 0xAA) sampleLedger := reachable_replay _
  rcases hreach.isolated with ⟨-, fragments, hwalk, hblocks⟩
  exact ⟨hreach, by decide +kernel, fragments, hwalk, fun block hblock => (hblocks block hblock).1⟩

end Ledger

end CanNode
