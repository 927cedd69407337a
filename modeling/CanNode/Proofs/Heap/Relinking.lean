import CanNode.Proofs.Heap.Chains

/-!
# Linking and unlinking as operations on lists

A heap whose bins are doubly linked lists answers for 32 lists of fragments.  Linking a fragment
conses it onto the list of its class, unlinking drops it from the middle of a list or from either
end, and unlinking what was just linked leads back to the lists and the mask from before
(`Listed.pushes_and_drops`).  Fragments may lie anywhere as long as none lies on another, so the
bins of `Heap.Binned` are one case (`Binned.listed`).  Headers, and all bytes but a few links,
stay what they are.
-/

namespace CanNode

namespace Heap

variable {heap heap' : Heap} {ground : Nat → Prop} {chains : Chains} {bin : Fin binCount}
  {f size : Nat} {left right : List Nat} {stores : List (Nat × Field)}

/-- The counters are the same, and so are all bytes but those of the words in `stores`.  The
headers of the fragments in `ground` read as before. -/
structure Relinked (heap heap' : Heap) (ground : Nat → Prop) (stores : List (Nat × Field)) :
    Prop where
  spares : heap.Spares heap' ground stores
  headers : ∀ x, ground x → ∀ field : Field, field.InHeader →
    heap'.get x field = heap.get x field

theorem Spares.relinked (h : heap.Spares heap' ground stores) (hs : heap.Scattered ground) :
    heap.Relinked heap' ground stores := by
  refine ⟨h, fun x hx field hin => ?_⟩
  rw [(hs.congr h.size).get_eq hx, hs.get_eq hx, h.wordOf_eq hs hx hin]

namespace Listed

theorem exists_class (h : heap.Listed ground chains) (hf : ground f)
    (hsize : heap.get f .size = .ok size) (hmin : minimumFragment ≤ size) :
    ∃ bin : Fin binCount, bin.val = Nat.log 2 (size / minimumFragment) ∧
      binOf? (heap.wordOf .size f) = some bin := by
  have hword : heap.wordOf .size f = size :=
    Except.ok.inj ((h.scattered.get_eq hf .size).symm.trans hsize)
  have hmax : size ≤ noLink := by
    have hlt := heap.arena.word_lt (f + Field.size.offset)
    rw [← wordOf, hword] at hlt
    exact Nat.le_of_lt_succ hlt
  obtain ⟨bin, hbin⟩ := exists_binOf? hmin hmax
  exact ⟨bin, ((binOf?_eq_some_iff_log hmin).mp hbin).symm, hword.symm ▸ hbin⟩

/-- The front of a list is dropped from it. -/
theorem unlink_front {linked : Heap}
    (h : linked.Listed ground (Function.update chains bin (f :: chains bin))) :
    ∃ unlinked, linked.unlink f = .ok unlinked ∧ unlinked.Listed ground chains := by
  have hchain : Function.update chains bin (f :: chains bin) bin = [] ++ f :: chains bin :=
    Function.update_self ..
  obtain ⟨unlinked, hrun, hlisted, -⟩ := h.unlink hchain
  rw [List.nil_append, Function.update_idem, Function.update_eq_self] at hlisted
  exact ⟨unlinked, hrun, hlisted⟩

/-- A heap is read as one list for every bin in one way only.  Linking a fragment in no bin conses
it onto the list of its class, and unlinking it again restores lists and mask.  Unlinking drops a
fragment from its list wherever it stands.  Both leave headers alone, and all bytes but links of
the fragment and of its neighbours. -/
theorem pushes_and_drops (h : heap.Listed ground chains) :
    (∀ ground' chains', heap.Listed ground' chains' → chains' = chains) ∧
    (∀ f size, ground f → (∀ bin, f ∉ chains bin) → heap.get f .size = .ok size →
      minimumFragment ≤ size →
      ∃ (bin : Fin binCount) (linked unlinked : Heap),
        bin.val = Nat.log 2 (size / minimumFragment) ∧
        heap.link f = .ok linked ∧
        linked.Listed ground (Function.update chains bin (f :: chains bin)) ∧
        heap.Relinked linked ground
          ([(f, .nextFree), (f, .prevFree)] ++ linkWords (chains bin).head? .prevFree) ∧
        linked.unlink f = .ok unlinked ∧
        unlinked.Listed ground chains ∧ unlinked.bins = heap.bins ∧
        unlinked.occupied = heap.occupied) ∧
    (∀ bin left f right, chains bin = left ++ f :: right →
      ∃ unlinked, heap.unlink f = .ok unlinked ∧
        unlinked.Listed ground (Function.update chains bin (left ++ right)) ∧
        heap.Relinked unlinked ground
          (linkWords right.head? .prevFree ++ linkWords left.getLast? .nextFree)) := by
  refine ⟨fun _ _ h' => h.chains_eq h', ?_, ?_⟩
  · intro f size hf hfresh hsize hmin
    obtain ⟨bin, hlog, hclass⟩ := h.exists_class hf hsize hmin
    obtain ⟨linked, hlink, hlinked, hspares⟩ := h.link hf hclass (hfresh bin)
    obtain ⟨unlinked, hunlink, hunlinked⟩ := hlinked.unlink_front
    exact ⟨bin, linked, unlinked, hlog, hlink, hlinked, hspares.relinked h.scattered, hunlink,
      hunlinked, h.bins_eq hunlinked, h.occupied_eq hunlinked⟩
  · intro bin left f right hchain
    obtain ⟨unlinked, hunlink, hunlinked, hspares⟩ := h.unlink hchain
    exact ⟨unlinked, hunlink, hunlinked, hspares.relinked h.scattered⟩

end Listed

/-! ## A heap without alignment -/

/-- Four free fragments of the smallest class side by side, none of them at a multiple of the
smallest size.  Three are linked in the order 77, 40, 3; the one at 120 is in no bin. -/
def looseHeap : Heap where
  arena := [(11, 37), (15, 0), (19, noLink), (23, 40), (48, 37), (52, 0), (56, 3), (60, 77),
    (85, 43), (89, 0), (93, 40), (97, noLink), (128, 40), (132, 0)].foldl
      (fun arena word => arena.setWord word.1 word.2) (Arena.filled 160 0xEE)
  bins := (Vector.replicate binCount none).set 0 (some 77)
  occupied := 1
  usage := { capacity := 160 }

def looseChains : Chains := fun bin =>
  if bin.val = 0 then [77, 40, 3] else []

theorem looseHeap_scattered : looseHeap.Scattered (· ∈ [3, 40, 77, 120]) where
  lt_noLink := by decide
  reach := by decide +kernel
  apart x y hx hy := by
    have happart : ∀ x ∈ [3, 40, 77, 120], ∀ y ∈ [3, 40, 77, 120], x ≠ y → Apart x y := by decide
    exact happart x hx y hy

theorem looseHeap_listed : looseHeap.Listed (· ∈ [3, 40, 77, 120]) looseChains where
  scattered := looseHeap_scattered
  members := by decide
  classed := by decide +kernel
  distinct := by decide
  linked := by decide +kernel
  head := by decide
  flagged := by decide

theorem pushes_and_drops_sample :
    (∃ linked unlinked, looseHeap.link 120 = .ok linked ∧
      linked.Listed (· ∈ [3, 40, 77, 120])
        (Function.update looseChains 0 [120, 77, 40, 3]) ∧
      linked.unlink 120 = .ok unlinked ∧ unlinked.Listed (· ∈ [3, 40, 77, 120]) looseChains) ∧
    ∃ unlinked, looseHeap.unlink 40 = .ok unlinked ∧
      unlinked.Listed (· ∈ [3, 40, 77, 120]) (Function.update looseChains 0 [77, 3]) := by
  obtain ⟨-, hpush, hdrop⟩ := looseHeap_listed.pushes_and_drops
  constructor
  · obtain ⟨bin, linked, unlinked, hlog, hlink, hlinked, -, hunlink, hunlinked, -⟩ :=
      hpush 120 40 (by decide) (by decide) (by decide +kernel) (by decide)
    have hbin : bin = 0 := Fin.ext (hlog.trans (by simp [minimumFragment]))
    subst hbin
    exact ⟨linked, unlinked, hlink, hlinked, hunlink, hunlinked⟩
  · obtain ⟨unlinked, hunlink, hunlinked, -⟩ := hdrop 0 [77] 40 [3] rfl
    exact ⟨unlinked, hunlink, hunlinked⟩

end Heap

end CanNode
