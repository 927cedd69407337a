import CanNode.Proofs.Heap.Shape

/-!
# A formatted heap is sound

Formatting stores the six words of one free fragment and files it in the bin of its class.
Whatever the arena held before, the result is a sound heap of that one fragment.
-/

namespace CanNode

theorem Arena.overlay_append (arena : Arena) (address : Nat) (front back : Bytes) :
    arena.overlay address (front ++ back) =
      (arena.overlay address front).overlay (address + front.length) back := by
  induction front generalizing arena address with
  | nil => rfl
  | cons value rest ih =>
      rw [List.cons_append, Arena.overlay, Arena.overlay, ih, List.length_cons, Nat.add_assoc,
        Nat.add_comm 1]

namespace Heap

variable {arena : Arena}

def usable (arena : Arena) : Nat :=
  arena.size / minimumFragment * minimumFragment

def wholeFragment (arena : Arena) : Fragment :=
  ⟨0, usable arena, false⟩

theorem usable_le (arena : Arena) : usable arena ≤ arena.size :=
  Nat.div_mul_le_self ..

theorem minimumFragment_le_usable (hmin : minimumFragment ≤ arena.size) :
    minimumFragment ≤ usable arena := by
  have hpos : 0 < arena.size / minimumFragment := Nat.div_pos hmin (by decide)
  exact Nat.le_mul_of_pos_left _ hpos

private def blank (arena : Arena) (bin : Fin binCount) : Heap where
  arena := arena
  bins := (Vector.replicate binCount none).set bin (some 0) bin.isLt
  occupied := BinMask.flag 0 bin
  usage := { capacity := usable arena }

private def described (heap : Heap) (capacity : Nat) : Heap :=
  (((((heap.put 0 .next noLink).put 0 .prev noLink).put 0 .size capacity).put 0 .used 0).put
    0 .nextFree noLink).put 0 .prevFree noLink

private theorem overlay_header (arena : Arena) (a b c d e f : Nat) :
    arena.overlay 0 ([a, b, c, d, e, f].flatMap (Bytes.ofNat 4)) =
      (((((arena.setWord 0 a).setWord 4 b).setWord 8 c).setWord 12 d).setWord 16 e).setWord
        20 f := by
  simp only [List.flatMap_cons, List.flatMap_nil, List.append_nil, Arena.overlay_append,
    Bytes.length_ofNat, Arena.setWord]

private theorem format_eq (hmin : minimumFragment ≤ arena.size) (hmax : arena.size ≤ noLink)
    {bin : Fin binCount} (hbin : binOf? (usable arena) = some bin) :
    format arena = .ok (described (blank arena bin) (usable arena)) := by
  have hcapacity : capacityFor arena.size = .ok (usable arena) := by
    have hfits := minimumFragment_le_usable hmin
    simp only [capacityFor, usable] at *
    rw [if_neg (Nat.not_lt.mpr hmax), if_neg (Nat.not_lt.mpr hfits)]
  simp only [format, hcapacity, bind, Except.bind, hbin, overlay_header, described, blank, put,
    Field.offset, Nat.zero_add]
  rfl

private theorem described_words {heap : Heap} (h : heap.Addressable 0) {capacity : Nat}
    (hcapacity : capacity ≤ noLink) :
    (described heap capacity).linkAt .next 0 = none ∧
      (described heap capacity).linkAt .prev 0 = none ∧
      (described heap capacity).wordAt .size 0 = capacity ∧
      (described heap capacity).wordAt .used 0 = 0 ∧
      (described heap capacity).linkAt .nextFree 0 = none ∧
      (described heap capacity).linkAt .prevFree 0 = none := by
  simp [described, linkAt, wordLink, h, hcapacity]

private theorem heads_blank (arena : Arena) (bin other : Fin binCount) :
    (blank arena bin).bins.get other = if other = bin then some 0 else none := by
  have hempty : (Vector.replicate binCount (none : Option Nat)).get other = none := by
    simp [Vector.get]
  rw [← hempty]
  exact get_bins_set _ bin other (some 0)

private theorem isFlagged_blank (arena : Arena) (bin other : Fin binCount) :
    (blank arena bin).occupied.isFlagged other = decide (other = bin) := by
  have hempty : BinMask.isFlagged 0 other = false := by simp [BinMask.isFlagged]
  rw [blank, BinMask.isFlagged_flag, hempty, Bool.false_or]

private theorem binned_described {bin : Fin binCount} (hmin : minimumFragment ≤ arena.size)
    (hmax : arena.size ≤ noLink) (hbin : binOf? (usable arena) = some bin) :
    (described (blank arena bin) (usable arena)).Binned
      (Function.update (fun _ => []) bin [0]) := by
  have haddr : (blank arena bin).Addressable 0 := ⟨Nat.dvd_zero _, by simpa [blank] using hmin⟩
  obtain ⟨-, -, hsize, -, hforth, hback⟩ :=
    described_words haddr (Nat.le_trans (usable_le arena) hmax)
  have hmem : ∀ other, ∀ x ∈ Function.update (fun _ => []) bin [0] other, x = 0 ∧ other = bin := by
    intro other x hx
    by_cases hother : other = bin
    · subst hother
      rw [Function.update_self] at hx
      exact ⟨List.mem_singleton.mp hx, rfl⟩
    · rw [Function.update_of_ne hother] at hx
      cases hx
  refine ⟨?_, fun other x hx => ?_, fun other x hx => ?_, fun other => ?_, fun other => ?_,
    fun other => ?_, fun other => ?_⟩
  · simpa [described, blank] using hmax
  · rw [(hmem other x hx).1]
    simpa [described] using haddr
  · rw [(hmem other x hx).1, (hmem other x hx).2, hsize]
    exact hbin
  · by_cases hother : other = bin <;> simp [Function.update, hother]
  · by_cases hother : other = bin
    · subst hother
      rw [Function.update_self]
      exact ⟨hback, hforth, trivial⟩
    · rw [Function.update_of_ne hother]
      trivial
  · have hhead := heads_blank arena bin other
    simp only [described, bins_put, hhead]
    by_cases hother : other = bin <;> simp [Function.update, hother]
  · have hflag := isFlagged_blank arena bin other
    simp only [described, occupied_put, hflag]
    by_cases hother : other = bin <;> simp [Function.update, hother]

/-- Formatting succeeds on every arena that holds a fragment and whose addresses fit a word. -/
theorem format_sound (hmin : minimumFragment ≤ arena.size) (hmax : arena.size ≤ noLink) :
    ∃ heap, format arena = .ok heap ∧
      heap.Sound [wholeFragment arena] (Chains.push (fun _ => []) (wholeFragment arena)) ∧
      heap.arena.size = arena.size ∧ heap.usage = { capacity := usable arena } := by
  have hfits := minimumFragment_le_usable hmin
  have hle := usable_le arena
  rcases exists_binOf? hfits (Nat.le_trans hle hmax) with ⟨bin, hbin⟩
  have hpush : Chains.push (fun _ => []) (wholeFragment arena) =
      Function.update (fun _ => []) bin [0] := Chains.push_eq hbin
  have haddr : (blank arena bin).Addressable 0 := ⟨Nat.dvd_zero _, by simpa [blank] using hmin⟩
  obtain ⟨hnext, hprev, hsize, hused, -, -⟩ :=
    described_words haddr (Nat.le_trans hle hmax)
  have harena : (described (blank arena bin) (usable arena)).arena.size = arena.size := by
    simp [described, blank]
  have husage : (described (blank arena bin) (usable arena)).usage =
      { capacity := usable arena } := by
    simp [described, blank]
  refine ⟨_, format_eq hmin hmax hbin, ⟨⟨⟨?_, ?_, ?_, ?_, ?_, ?_⟩, ?_, List.Sublist.refl _, ?_⟩,
    List.isChain_singleton _, by rw [husage]; rfl, by rw [husage]; rfl⟩, harena, husage⟩
  · rwa [harena]
  · rwa [harena, husage]
  · rw [husage]
    exact ⟨rfl, Nat.lt_of_lt_of_le (by decide) hfits, Nat.dvd_mul_left .., Nat.zero_add _⟩
  · exact ⟨hprev, hnext, trivial⟩
  · intro f hf
    rw [List.mem_singleton.mp hf]
    exact hsize
  · intro f hf
    rw [List.mem_singleton.mp hf]
    exact hused
  · rw [hpush]
    exact binned_described hmin hmax hbin
  · rw [hpush]
    intro other x
    by_cases hother : other = bin
    · subst hother
      rw [Function.update_self, List.mem_singleton]
      constructor
      · intro heq
        subst heq
        exact ⟨wholeFragment arena, List.mem_singleton_self _, rfl, rfl, hbin⟩
      · intro hfiled
        rcases hfiled with ⟨f, hf, rfl, -, -⟩
        rw [List.mem_singleton.mp hf]
        rfl
    · rw [Function.update_of_ne hother]
      constructor
      · intro hx
        cases hx
      · intro hfiled
        rcases hfiled with ⟨f, hf, -, -, hclass⟩
        rw [List.mem_singleton.mp hf] at hclass
        exact absurd (Option.some.inj (hclass.symm.trans hbin)) hother

/-- Formatting refuses every other arena. -/
theorem bounds_of_format {heap : Heap} (h : format arena = .ok heap) :
    minimumFragment ≤ arena.size ∧ arena.size ≤ noLink := by
  have hcapacity : ∃ capacity, capacityFor arena.size = .ok capacity := by
    cases hcase : capacityFor arena.size with
    | ok capacity => exact ⟨capacity, rfl⟩
    | error _ => simp [format, hcase, bind, Except.bind] at h
  rcases hcapacity with ⟨capacity, hcapacity⟩
  unfold capacityFor at hcapacity
  split at hcapacity
  · cases hcapacity
  · split at hcapacity
    · cases hcapacity
    · rename_i hlarge hsmall
      have hle := usable_le arena
      exact ⟨Nat.le_trans (Nat.le_of_not_lt hsmall) hle, Nat.le_of_not_lt hlarge⟩

theorem usage_of_format {heap : Heap} (h : format arena = .ok heap) :
    heap.usage = { capacity := usable arena } := by
  obtain ⟨hmin, hmax⟩ := bounds_of_format h
  obtain ⟨heap', hformat, -, -, husage⟩ := format_sound hmin hmax
  obtain rfl : heap = heap' := Except.ok.inj (h.symm.trans hformat)
  exact husage

end Heap

end CanNode
