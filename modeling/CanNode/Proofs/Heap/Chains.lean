import CanNode.Proofs.Heap.FreeLists

/-!
# Bins as lists

`Heap.Binned` reads the bins of a heap as one list of fragments each, at addresses where
fragments may start.  In this view linking a fragment puts it in front of the list of its class
(`Binned.link`) and unlinking drops it from wherever it stands (`Binned.unlink`).  Neither
touches a header, and the only bytes they store are links of the fragment and of its neighbours
in the list.
-/

namespace CanNode

namespace Heap

/-- The bins of a heap hold these fragments, in this order. -/
structure Binned (heap : Heap) (chains : Chains) : Prop where
  bounded : heap.arena.size ≤ noLink
  addressable : ∀ bin, ∀ x ∈ chains bin, heap.Addressable x
  classed : ∀ bin, ∀ x ∈ chains bin, binOf? (heap.wordAt .size x) = some bin
  distinct : ∀ bin, (chains bin).Nodup
  linked : ∀ bin, Linked (heap.linkAt .nextFree) (heap.linkAt .prevFree) none (chains bin) none
  head : ∀ bin, heap.bins.get bin = (chains bin).head?
  flagged : ∀ bin, heap.occupied.isFlagged bin = (chains bin).head?.isSome

/-- The heaps agree in their counters and in the headers of all fragments. -/
structure KeepsHeaders (heap heap' : Heap) : Prop where
  size : heap'.arena.size = heap.arena.size
  usage : heap'.usage = heap.usage
  words : ∀ field : Field, field.InHeader → heap'.wordAt field = heap.wordAt field

variable {heap heap' : Heap} {chains : Chains} {bin : Fin binCount} {x : Nat} {field : Field}
  {left right : List Nat} {stores : List (Nat × Field)}

theorem wordAt_congr_arena (h : heap'.arena = heap.arena) (field : Field) :
    heap'.wordAt field = heap.wordAt field := by
  funext y
  rw [wordAt, wordAt, h]

theorem wordAt_eq_wordOf (h : minimumFragment ∣ x) : heap.wordAt field x = heap.wordOf field x :=
  if_pos h

theorem linkAt_eq_linkOf (h : minimumFragment ∣ x) : heap.linkAt field x = heap.linkOf field x := by
  rw [linkAt, linkOf, wordAt_eq_wordOf h]

theorem scattered_addressable (hbounded : heap.arena.size ≤ noLink) :
    heap.Scattered heap.Addressable where
  lt_noLink _ hx := hx.lt_noLink hbounded
  reach _ hx := hx.2
  apart x y hx hy hne := by
    have hxdvd := hx.1
    have hydvd := hy.1
    simp only [Apart, minimumFragment] at *
    omega

theorem Spares.keepsHeaders (h : heap.Spares heap' heap.Addressable stores) :
    heap.KeepsHeaders heap' where
  size := h.size
  usage := h.usage
  words field hin := by
    funext y
    unfold wordAt
    by_cases hy : minimumFragment ∣ y
    · rw [if_pos hy, if_pos hy]
      refine h.word_eq fun store hstore => ?_
      have hlink := h.links store hstore
      exact words_apart hy hlink.1.1 (.inr fun heq => hlink.2 (heq ▸ hin))
    · rw [if_neg hy, if_neg hy]

/-- Bins at addresses where fragments may start are lists of fragments that lie apart. -/
theorem binned_iff_listed :
    heap.Binned chains ↔ heap.arena.size ≤ noLink ∧ heap.Listed heap.Addressable chains := by
  constructor
  · intro h
    refine ⟨h.bounded, scattered_addressable h.bounded, h.addressable, fun bin x hx => ?_,
      h.distinct, fun bin => ?_, h.head, h.flagged⟩
    · rw [← wordAt_eq_wordOf (h.addressable bin x hx).1]
      exact h.classed bin x hx
    · exact (h.linked bin).congr
        (fun x hx => (linkAt_eq_linkOf (h.addressable bin x hx).1).symm)
        fun x hx => (linkAt_eq_linkOf (h.addressable bin x hx).1).symm
  · intro ⟨hbounded, h⟩
    refine ⟨hbounded, h.members, fun bin x hx => ?_, h.distinct, fun bin => ?_, h.head,
      h.flagged⟩
    · rw [wordAt_eq_wordOf (h.members bin x hx).1]
      exact h.classed bin x hx
    · exact (h.linked bin).congr (fun x hx => linkAt_eq_linkOf (h.members bin x hx).1)
        fun x hx => linkAt_eq_linkOf (h.members bin x hx).1

namespace Binned

theorem listed (h : heap.Binned chains) : heap.Listed heap.Addressable chains :=
  (binned_iff_listed.mp h).2

theorem of_listed (h : heap.Binned chains) {chains' : Chains}
    (hsize : heap'.arena.size = heap.arena.size) (h' : heap'.Listed heap.Addressable chains') :
    heap'.Binned chains' := by
  have haddr : heap.Addressable = heap'.Addressable :=
    funext fun _ => propext (addressable_congr hsize).symm
  exact binned_iff_listed.mpr ⟨hsize ▸ h.bounded, haddr ▸ h'⟩

theorem bin_unique (h : heap.Binned chains) {bin' : Fin binCount} (hx : x ∈ chains bin)
    (hx' : x ∈ chains bin') : bin = bin' :=
  h.listed.bin_unique hx hx'

/-- Bins are read from their heads and mask, and from sizes and links of the fragments in
them. -/
theorem congr (h : heap.Binned chains) (hsize : heap'.arena.size = heap.arena.size)
    (hbins : heap'.bins = heap.bins) (hoccupied : heap'.occupied = heap.occupied)
    (hwords : ∀ bin, ∀ x ∈ chains bin, ∀ field ∈ [Field.size, .nextFree, .prevFree],
      heap'.wordAt field x = heap.wordAt field x) : heap'.Binned chains where
  bounded := hsize ▸ h.bounded
  addressable bin x hx := (addressable_congr hsize).mpr (h.addressable bin x hx)
  classed bin x hx := by
    rw [hwords bin x hx .size (by simp)]
    exact h.classed bin x hx
  distinct := h.distinct
  linked bin := by
    refine (h.linked bin).congr (fun x hx => ?_) fun x hx => ?_
    · rw [linkAt, linkAt, hwords bin x hx .nextFree (by simp)]
    · rw [linkAt, linkAt, hwords bin x hx .prevFree (by simp)]
  head bin := hbins ▸ h.head bin
  flagged bin := hoccupied ▸ h.flagged bin

theorem unlink (h : heap.Binned chains) (hchain : chains bin = left ++ x :: right) :
    ∃ heap', heap.unlink x = .ok heap' ∧
      heap'.Binned (Function.update chains bin (left ++ right)) ∧ heap.KeepsHeaders heap' ∧
      ∀ region, (∀ y ∈ right.head?, ClearOf region y .prevFree) →
        (∀ y ∈ left.getLast?, ClearOf region y .nextFree) → AgreesOn region heap heap' := by
  obtain ⟨heap', hrun, hlisted, hspares⟩ := h.listed.unlink hchain
  refine ⟨heap', hrun, h.of_listed hspares.size hlisted, hspares.keepsHeaders,
    fun region hafter hbefore => hspares.agreesOn ?_⟩
  rw [List.forall_mem_append, forall_mem_linkWords, forall_mem_linkWords]
  exact ⟨hafter, hbefore⟩

theorem link (h : heap.Binned chains) (hx : heap.Addressable x)
    (hclass : binOf? (heap.wordAt .size x) = some bin) (hfresh : x ∉ chains bin) :
    ∃ heap', heap.link x = .ok heap' ∧
      heap'.Binned (Function.update chains bin (x :: chains bin)) ∧ heap.KeepsHeaders heap' ∧
      ∀ region, ClearOf region x .nextFree → ClearOf region x .prevFree →
        (∀ y ∈ (chains bin).head?, ClearOf region y .prevFree) → AgreesOn region heap heap' := by
  rw [wordAt_eq_wordOf hx.1] at hclass
  obtain ⟨heap', hrun, hlisted, hspares⟩ := h.listed.link hx hclass hfresh
  refine ⟨heap', hrun, h.of_listed hspares.size hlisted, hspares.keepsHeaders,
    fun region hforth hback hhead => hspares.agreesOn ?_⟩
  rw [List.forall_mem_append, List.forall_mem_cons, List.forall_mem_singleton,
    forall_mem_linkWords]
  exact ⟨⟨hforth, hback⟩, hhead⟩

end Binned

end Heap

end CanNode
