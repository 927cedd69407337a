import CanNode.Proofs.Heap.Audit
import CanNode.Proofs.Heap.Ledger
import CanNode.Proofs.Heap.Usage

/-!
# Blocks of another heap

A heap ignores a block that lies outside its arena, or whose header word does not read like that of
an allocated fragment.  A block of another heap may pass both tests: `Ledger.Confuses` says when,
and `Ledger.ignores_foreign_iff` that in no other case a heap changes or faults over one.
-/

namespace CanNode

namespace Heap

variable {heap : Heap}

theorem Tiled.word_used {fragments : List Fragment} {f : Fragment} (h : heap.Tiled fragments)
    (hf : f ∈ fragments) : heap.arena.word (f.offset + Field.used.offset) = f.used.toNat := by
  rw [← h.marked f hf]
  exact (if_pos (h.tiling.dvd_offset (Nat.dvd_zero _) hf)).symm

/-- A heap ignores exactly the blocks that its two tests keep out. -/
theorem free_eq_self_iff {block : Block} (hwithin : heap.usage.capacity ≤ heap.arena.size) :
    heap.free block = .ok heap ↔ block.start ≤ heap.usage.capacity →
      heap.arena.word (block.offset + Field.used.offset) ≠ 1 := by
  unfold free
  by_cases hinside : heap.usage.capacity < block.start
  · simp [hinside]
  have hfits : block.offset + Field.used.offset + 4 ≤ heap.arena.size := by
    simp only [Block.start, headerSize, Field.offset] at hinside ⊢
    omega
  rw [if_neg hinside, get_of_fits hfits]
  by_cases hword : heap.arena.word (block.offset + Field.used.offset) = 1
  · refine iff_of_false (fun hself => ?_) (fun hother => hother (Nat.not_lt.mp hinside) hword)
    have hrelease : heap.release block.offset = .ok heap := by
      simpa [hword, bind, Except.bind] using hself
    obtain ⟨size, husage⟩ := usage_release hrelease
    exact absurd (Usage.live_release husage) (Nat.succ_ne_self _)
  · simp [hword, bind, Except.bind, pure, Except.pure]

end Heap

theorem Tiling.exists_mem {start stop address : Nat} {fragments : List Fragment}
    (h : Tiling start fragments stop) (hlow : start ≤ address) (hhigh : address < stop) :
    ∃ f ∈ fragments, f.offset ≤ address ∧ address < f.offset + f.size := by
  induction fragments generalizing start with
  | nil =>
      obtain rfl : start = stop := h
      exact absurd hhigh (Nat.not_lt.mpr hlow)
  | cons first rest ih =>
      obtain ⟨rfl, -, -, hrest⟩ := h
      by_cases hfirst : address < first.offset + first.size
      · exact ⟨first, List.mem_cons_self, hlow, hfirst⟩
      · obtain ⟨f, hf, hin⟩ := ih hrest (Nat.not_lt.mp hfirst)
        exact ⟨f, List.mem_cons_of_mem first hf, hin⟩

namespace Ledger

/-- A heap takes a block for one of its own. -/
inductive Confuses (ledger : Ledger) (block : Block) : Prop where
  /-- A block of its own has the same address. -/
  | namesake {own} (hown : own ∈ ledger.live) (hoffset : own.offset = block.offset)
  /-- The address is inside a fragment, where a word reads as in the header of an allocated one. -/
  | lookalike {fragments f} (hwalk : ledger.heap.walk = .ok (some fragments))
      (hf : f ∈ fragments) (hafter : f.offset < block.offset)
      (hbefore : block.offset + minimumFragment ≤ f.offset + f.size)
      (hword : ledger.heap.arena.word (block.offset + Field.used.offset) = 1)

variable {ledger other : Ledger} {fragments : List Fragment} {chains : Chains} {block own : Block}

/-- The two tests of a sound heap let pass what it confuses, and nothing else. -/
theorem Sound.confuses_iff (h : ledger.Sound fragments chains)
    (hpos : 0 < ledger.heap.usage.capacity) (haligned : minimumFragment ∣ block.offset) :
    ledger.Confuses block ↔ block.start ≤ ledger.heap.usage.capacity ∧
      ledger.heap.arena.word (block.offset + Field.used.offset) = 1 := by
  have htiling := h.heap.shaped.tiled.tiling
  constructor
  · rintro (⟨hown, hoffset⟩ | ⟨hwalk, hf, hafter, hbefore, hword⟩)
    · have hmem := h.mem_fragments hown
      have hbounds := htiling.bounds hmem
      have hsize := htiling.minimumFragment_le hmem
      have hword := h.heap.shaped.tiled.word_used hmem
      simp only [Block.fragment, hoffset] at hbounds hsize hword
      simp only [Block.start, headerSize, minimumFragment] at hsize ⊢
      exact ⟨by omega, hword⟩
    · obtain rfl := Option.some.inj (Except.ok.inj (hwalk.symm.trans (h.heap.walk_eq hpos)))
      have hbounds := htiling.bounds hf
      simp only [Block.start, headerSize, minimumFragment] at hbefore ⊢
      exact ⟨by omega, hword⟩
  · rintro ⟨hstart, hword⟩
    simp only [Block.start, headerSize] at hstart
    obtain ⟨f, hf, hlow, hhigh⟩ :=
      htiling.exists_mem (Nat.zero_le block.offset) (by omega)
    obtain hoffset | hafter := Nat.eq_or_lt_of_le hlow
    · -- the word is the mark of a fragment, so this is allocated and some block lives in it
      have hused : f.used = true := by
        have hmark := h.heap.shaped.tiled.word_used hf
        rw [hoffset, hword] at hmark
        exact Bool.toNat_eq_one.mp hmark.symm
      obtain ⟨own, hown, rfl⟩ := List.mem_map.mp
        (h.blocks.mem_iff.mp (List.mem_filter.mpr ⟨hf, hused⟩))
      exact .namesake hown hoffset
    · obtain ⟨n, hn⟩ := haligned
      obtain ⟨m, hm⟩ := Nat.dvd_add (htiling.dvd_offset (Nat.dvd_zero _) hf)
        (htiling.dvd_size hf)
      refine .lookalike (h.heap.walk_eq hpos) hf hafter ?_ hword
      simp only [minimumFragment] at *
      omega

theorem free_congr (hoffset : own.offset = block.offset) :
    ledger.heap.free own = ledger.heap.free block := by
  unfold Heap.free Block.start
  rw [hoffset]

/-- A live block of another heap leaves a heap as it was exactly if the heap does not confuse it
with a block of its own.  If one of its own has the same address, that one is released. -/
theorem ignores_foreign_iff {arena arena' : Arena} (h : Reachable arena ledger)
    (hother : Reachable arena' other) (hblock : block ∈ other.live) :
    (ledger.heap.free block = .ok ledger.heap ↔ ¬ ledger.Confuses block) ∧
      ∀ own ∈ ledger.live, own.offset = block.offset →
        ∃ heap, ledger.heap.free block = .ok heap ∧
          ledger.perform (.free own) = .ok ⟨heap, ledger.live.erase own⟩ ∧
          heap.usage.live + 1 = ledger.heap.usage.live := by
  obtain ⟨⟨fragments, chains, hsound⟩, hcapacity, hpos⟩ := h.sound
  obtain ⟨⟨fragments', chains', hsound'⟩, -, -⟩ := hother.sound
  have haligned : minimumFragment ∣ block.offset :=
    hsound'.heap.shaped.tiled.tiling.dvd_offset (Nat.dvd_zero _) (hsound'.mem_fragments hblock)
  constructor
  · rw [Heap.free_eq_self_iff hsound.heap.shaped.tiled.within,
      hsound.confuses_iff (hcapacity ▸ hpos) haligned, not_and]
  · intro own hown hoffset
    obtain ⟨heap, hfree, -, hlive, -⟩ := hsound.free hown
    exact ⟨heap, (free_congr hoffset).symm.trans hfree, perform_free hfree, hlive⟩

def plainLedger : Ledger :=
  (replay (Arena.filled 128 0) [.allocate 8]).get (by decide +kernel)

/-- A heap with one block, whose user wrote what reads as the mark of an allocated fragment. -/
def writtenLedger : Ledger :=
  (replay (Arena.filled 128 0) [.allocate 40, .write ⟨0, 40⟩ 28 [1, 0, 0, 0]]).get
    (by decide +kernel)

def otherLedger : Ledger :=
  (replay (Arena.filled 128 0) [.allocate 8, .allocate 8]).get (by decide +kernel)

/-- Of the blocks of the other heap one is ignored and one is not. -/
theorem ignores_foreign_sample :
    Reachable (Arena.filled 128 0) plainLedger ∧ Reachable (Arena.filled 128 0) otherLedger ∧
      otherLedger.live = [⟨32, 8⟩, ⟨0, 8⟩] ∧
      plainLedger.heap.free ⟨32, 8⟩ = .ok plainLedger.heap ∧
      ¬ plainLedger.heap.free ⟨0, 8⟩ = .ok plainLedger.heap := by
  have hplain : Reachable (Arena.filled 128 0) plainLedger := reachable_replay _
  have hother : Reachable (Arena.filled 128 0) otherLedger := reachable_replay _
  have hlive : plainLedger.live = [⟨0, 8⟩] := by decide +kernel
  have hfirst : (⟨0, 8⟩ : Block) ∈ otherLedger.live := by decide +kernel
  have hsecond : (⟨32, 8⟩ : Block) ∈ otherLedger.live := by decide +kernel
  have hdistinct : ¬ plainLedger.Confuses ⟨32, 8⟩ := by
    rintro (⟨hown, hoffset⟩ | ⟨-, -, -, -, hword⟩)
    · simp [hlive] at hown
      simp [hown] at hoffset
    · exact absurd hword (by decide +kernel)
  refine ⟨hplain, hother, by decide +kernel,
    (ignores_foreign_iff hplain hother hsecond).1.mpr hdistinct,
    fun hfree => (ignores_foreign_iff hplain hother hfirst).1.mp hfree ?_⟩
  exact .namesake (hlive ▸ List.mem_singleton_self _) rfl

/-- Two live blocks of another heap are not ignored: one heap releases its own block at the address
of the first, and another faults over the second. -/
theorem foreign_not_ignored :
    Reachable (Arena.filled 128 0) plainLedger ∧ Reachable (Arena.filled 128 0) writtenLedger ∧
      Reachable (Arena.filled 128 0) otherLedger ∧ otherLedger.live = [⟨32, 8⟩, ⟨0, 8⟩] ∧
      plainLedger.live = [⟨0, 8⟩] ∧ plainLedger.heap.usage.live = 1 ∧
      ((plainLedger.heap.free ⟨0, 8⟩).toOption.map (·.usage.live)) = some 0 ∧
      (writtenLedger.heap.free ⟨32, 8⟩).toOption.isNone = true :=
  ⟨reachable_replay _, reachable_replay _, reachable_replay _, by decide +kernel,
    by decide +kernel, by decide +kernel, by decide +kernel, by decide +kernel⟩

end Ledger

end CanNode
