import CanNode.Proofs.Heap.Inspection
import CanNode.Proofs.Heap.Ledger

/-!
# What an audit finds out

For any contents of the arena, `Heap.audit_eq_true_iff` says what it means that an audit passes.
The audit neither compares the links between fragments with their sizes nor looks for the free
fragments in the bins, so a heap may pass that has lost memory: `Heap.audit_misses_loss` is one.
-/

namespace CanNode

namespace Heap

variable {heap : Heap} {fragments : List Fragment} {chains : Chains} {bin : Fin binCount}

/-- No memory is lost: the fragments fill the heap, every link leads to where its fragment ends,
and every free fragment is in the bin of its size. -/
structure LosesNothing (heap : Heap) (fragments : List Fragment) (chains : Chains) : Prop where
  tiling : Tiling 0 fragments heap.usage.capacity
  next : ∀ f ∈ fragments, heap.getLink f.offset .next =
    .ok (if f.offset + f.size = heap.usage.capacity then none else some (f.offset + f.size))
  binned : ∀ f ∈ fragments, f.used = false →
    ∃ bin, binOf? f.size = some bin ∧ f.offset ∈ chains bin

def held (fragments : List Fragment) (chains : Chains) : List Fragment :=
  fragments.filter fun f => ∃ bin, f.offset ∈ chains bin

theorem tiling_iff_isChain {start : Nat}
    (hsizes : ∀ f ∈ fragments, 0 < f.size ∧ minimumFragment ∣ f.size) :
    Tiling start fragments (start + totalSize fragments) ↔
      (∀ f ∈ fragments.head?, f.offset = start) ∧
        fragments.IsChain fun f g => g.offset = f.offset + f.size := by
  induction fragments generalizing start with
  | nil => simp [Tiling, totalSize]
  | cons f rest ih =>
      obtain ⟨⟨hpos, hdvd⟩, hrest⟩ := List.forall_mem_cons.mp hsizes
      rw [totalSize, ← Nat.add_assoc, Tiling, ih hrest, List.isChain_cons]
      constructor
      · rintro ⟨rfl, -, -, hhead, hchain⟩
        exact ⟨by simp, hhead, hchain⟩
      · rintro ⟨hoffset, hhead, hchain⟩
        obtain rfl := hoffset f rfl
        exact ⟨rfl, hpos, hdvd, hhead, hchain⟩

theorem Visits.next_of_tiling {start stop : Nat} {link : Option Nat}
    (h : heap.Visits .next link (offsets fragments)) (htiling : Tiling start fragments stop) :
    ∀ f ∈ fragments, heap.getLink f.offset .next =
      .ok (if f.offset + f.size = stop then none else some (f.offset + f.size)) := by
  induction fragments generalizing start link with
  | nil => simp
  | cons f rest ih =>
      obtain ⟨-, next, hnext, hvisits⟩ := h
      obtain ⟨rfl, -, -, hrest⟩ := htiling
      refine List.forall_mem_cons.mpr ⟨hnext.trans (congrArg Except.ok ?_), ih hvisits hrest⟩
      cases rest with
      | nil => exact hvisits.trans (if_pos hrest).symm
      | cons g tail =>
          obtain ⟨hoffset, hpos, -, htail⟩ := hrest
          have hle := htail.le
          rw [if_neg (by omega), ← hoffset]
          exact hvisits.1

namespace Audited

/-- A walk tiles the heap if its links agree with the sizes: the total makes up for the end. -/
theorem tiling_iff (h : heap.Audited fragments chains) :
    Tiling 0 fragments heap.usage.capacity ↔
      fragments.IsChain fun f g => g.offset = f.offset + f.size := by
  have hsizes : ∀ f ∈ fragments, 0 < f.size ∧ minimumFragment ∣ f.size := by
    intro f hf
    have haccepts := h.accepts f hf
    exact ⟨Nat.lt_of_lt_of_le (by decide) haccepts.minimum, haccepts.whole⟩
  have hfirst : ∀ f ∈ fragments.head?, f.offset = 0 := fun f hf => h.visits.head_eq hf
  rw [← Nat.zero_add heap.usage.capacity, ← h.capacity, tiling_iff_isChain hsizes,
    and_iff_right hfirst]

/-- A fragment that a bin holds is free and in the bin of its size. -/
theorem suits_of_mem (h : heap.Audited fragments chains) {f : Fragment} (hf : f ∈ fragments)
    (hmem : f.offset ∈ chains bin) : f.used = false ∧ binOf? f.size = some bin := by
  obtain ⟨hfree, size, hsize, hclass⟩ := h.suits bin f.offset hmem
  have haccepts := h.accepts f hf
  obtain ⟨word, hword, hmark⟩ := haccepts.marked
  obtain rfl := Except.ok.inj (hfree.symm.trans hword)
  obtain rfl := Except.ok.inj (haccepts.sized.symm.trans hsize)
  have hunused : ¬ f.used = true := fun hused => Nat.zero_ne_one (hmark.mp hused)
  exact ⟨Bool.eq_false_iff.mpr hunused, hclass⟩

theorem held_eq (h : heap.Audited fragments chains) : held fragments chains =
    held (fragments.filter (!·.used)) chains := by
  rw [held, held, List.filter_filter]
  refine List.filter_congr fun f hf => ?_
  by_cases hmem : ∃ bin, f.offset ∈ chains bin
  · obtain ⟨bin, hbin⟩ := hmem
    simp [(h.suits_of_mem hf hbin).1]
  · simp [hmem]

theorem binned_iff (h : heap.Audited fragments chains) :
    (∀ f ∈ fragments, f.used = false → ∃ bin, binOf? f.size = some bin ∧ f.offset ∈ chains bin) ↔
      (held fragments chains).length = (fragments.filter (!·.used)).length := by
  rw [h.held_eq, held, List.length_filter_eq_length_iff]
  simp only [List.mem_filter, Bool.not_eq_true', decide_eq_true_eq, and_imp]
  constructor
  · intro hbinned f hf hfree
    obtain ⟨bin, -, hmem⟩ := hbinned f hf hfree
    exact ⟨bin, hmem⟩
  · intro hheld f hf hfree
    obtain ⟨bin, hmem⟩ := hheld f hf hfree
    exact ⟨bin, (h.suits_of_mem hf hmem).2, hmem⟩

theorem losesNothing_iff (h : heap.Audited fragments chains) :
    heap.LosesNothing fragments chains ↔
      (fragments.IsChain fun f g => g.offset = f.offset + f.size) ∧
        (held fragments chains).length = (fragments.filter (!·.used)).length := by
  rw [← h.tiling_iff, ← h.binned_iff]
  constructor
  · intro hall
    exact ⟨hall.tiling, hall.binned⟩
  · rintro ⟨htiling, hbinned⟩
    exact ⟨htiling, h.visits.next_of_tiling htiling, hbinned⟩

end Audited

/-- An audit passes exactly when the walk and the bins end, each of them is in order, and the
totals fit.  This does not rule out that memory is lost: for that, each fragment would also have to
begin where the one before ends, and the bins to hold as many fragments of the walk as are free. -/
theorem audit_eq_true_iff (heap : Heap) : heap.audit = .ok true ↔
    ∃ fragments chains, heap.walk = .ok (some fragments) ∧ heap.Audited fragments chains ∧
      (heap.LosesNothing fragments chains ↔
        (fragments.IsChain fun f g => g.offset = f.offset + f.size) ∧
          (held fragments chains).length = (fragments.filter (!·.used)).length) := by
  rw [← exists_audited_iff]
  constructor
  · rintro ⟨fragments, chains, h⟩
    exact ⟨fragments, chains, walk_eq_some_iff.mpr h.walked, h, h.losesNothing_iff⟩
  · rintro ⟨fragments, chains, -, h, -⟩
    exact ⟨fragments, chains, h⟩

def intactHeap : Heap :=
  ((Ledger.replay (Arena.filled 160 0) [.allocate 8, .allocate 8, .allocate 40, .free ⟨0, 8⟩]).get
    (by decide +kernel)).heap

/-- The heap after writes through a block of another heap, which covers headers of this one.  The
first free fragment no longer leads to the second one in their bin, and the two allocated fragments
have exchanged their sizes. -/
def lossyHeap : Heap :=
  (do
    let heap ← intactHeap.write ⟨0, 80⟩ 0 [0xFF, 0xFF, 0xFF, 0xFF]
    let heap ← heap.write ⟨0, 80⟩ 24 [64, 0, 0, 0]
    heap.write ⟨0, 80⟩ 56 [32, 0, 0, 0]).toOption.get (by decide +kernel)

def lossyFragments : List Fragment :=
  [⟨0, 32, false⟩, ⟨32, 64, true⟩, ⟨64, 32, true⟩, ⟨128, 32, false⟩]

/-- The heap passes, though its fragments do not tile it and one of the free ones is in no bin. -/
theorem audit_misses_loss :
    lossyHeap.audit = .ok true ∧ lossyHeap.walk = .ok (some lossyFragments) ∧
      ¬ Tiling 0 lossyFragments lossyHeap.usage.capacity ∧
      ∀ bin chain, lossyHeap.Visits .nextFree (lossyHeap.bins.get bin) chain → 128 ∉ chain := by
  have hfacts : lossyHeap.audit = .ok true ∧ lossyHeap.walk = .ok (some lossyFragments) ∧
      lossyHeap.getLink 0 .nextFree = .ok none ∧ lossyHeap.bins.get 0 = some 0 ∧
      ∀ bin, bin ≠ 0 → lossyHeap.bins.get bin = none := by
    decide +kernel
  obtain ⟨haudit, hwalk, hlast, hbin, hempty⟩ := hfacts
  refine ⟨haudit, hwalk, by simp [Tiling, lossyFragments], fun bin chain hvisits => ?_⟩
  by_cases hzero : bin = 0
  · -- the bin ends with its first fragment, and the other bins are empty
    have hpath : lossyHeap.Visits .nextFree (some 0) [0] := ⟨rfl, none, hlast, rfl⟩
    rw [hzero, hbin] at hvisits
    simp [hvisits.unique hpath]
  · have hpath : lossyHeap.Visits .nextFree none [] := rfl
    rw [hempty bin hzero] at hvisits
    simp [hvisits.unique hpath]

end Heap

end CanNode
