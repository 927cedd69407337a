import CanNode.Heap.Audit
import Mathlib.Data.List.Chain

/-!
# Fragments that tile an address range

A list of fragments tiles a range when each begins where the one before it ends.  The fragments
of a tiling are apart from each other and are told apart by their offsets.  Cutting a fragment
in two, and joining two neighbours, gives a tiling of the same range.
-/

namespace CanNode

/-- The fragments fill the addresses from `start` to `stop`, one behind the other, in sizes
that are positive multiples of the smallest one. -/
def Tiling : Nat → List Fragment → Nat → Prop
  | start, [], stop => start = stop
  | start, fragment :: rest, stop =>
      fragment.offset = start ∧ 0 < fragment.size ∧ minimumFragment ∣ fragment.size ∧
        Tiling (start + fragment.size) rest stop

/-- No two neighbours are both free. -/
def Coalesced (fragments : List Fragment) : Prop :=
  fragments.IsChain fun left right => left.used = true ∨ right.used = true

abbrev offsets (fragments : List Fragment) : List Nat :=
  fragments.map (·.offset)

theorem Fragment.ne_of_used {f g : Fragment} (hfree : f.used = false) (hused : g.used = true) :
    f ≠ g := by
  intro heq
  rw [heq] at hfree
  exact Bool.false_ne_true (hfree.symm.trans hused)

theorem offset_ne_of_nodup {left right : List Fragment} {f g : Fragment}
    (h : (offsets (left ++ g :: right)).Nodup) (hf : f ∈ left ++ right) :
    f.offset ≠ g.offset := by
  intro heq
  have hperm : (left ++ g :: right).Perm (g :: (left ++ right)) := List.perm_middle
  have hcons := (hperm.map (·.offset)).nodup_iff.mp h
  exact (List.nodup_cons.mp hcons).1 (List.mem_map.mpr ⟨f, hf, heq⟩)

namespace Tiling

variable {start stop : Nat} {fragments left right : List Fragment} {f g : Fragment}

theorem append_iff : Tiling start (left ++ right) stop ↔
    ∃ middle, Tiling start left middle ∧ Tiling middle right stop := by
  induction left generalizing start with
  | nil => simp [Tiling]
  | cons first rest ih =>
      simp only [List.cons_append, Tiling, ih]
      constructor
      · intro htiles
        rcases htiles with ⟨hoffset, hpos, hsize, middle, hrest, hright⟩
        exact ⟨middle, ⟨hoffset, hpos, hsize, hrest⟩, hright⟩
      · intro htiles
        rcases htiles with ⟨middle, ⟨hoffset, hpos, hsize, hrest⟩, hright⟩
        exact ⟨hoffset, hpos, hsize, middle, hrest, hright⟩

theorem stop_eq (h : Tiling start fragments stop) :
    stop = start + Heap.totalSize fragments := by
  induction fragments generalizing start with
  | nil => exact h.symm
  | cons first rest ih =>
      rw [ih h.2.2.2, Heap.totalSize, Nat.add_assoc]

theorem le (h : Tiling start fragments stop) : start ≤ stop := by
  have hstop := h.stop_eq
  omega

theorem bounds (h : Tiling start fragments stop) (hf : f ∈ fragments) :
    start ≤ f.offset ∧ f.offset + f.size ≤ stop := by
  induction fragments generalizing start with
  | nil => cases hf
  | cons first rest ih =>
      rcases h with ⟨hoffset, -, -, hrest⟩
      rcases List.mem_cons.mp hf with rfl | hf
      · have hle := hrest.le
        omega
      · have hin := ih hrest hf
        omega

theorem dvd_size (h : Tiling start fragments stop) (hf : f ∈ fragments) :
    minimumFragment ∣ f.size := by
  induction fragments generalizing start with
  | nil => cases hf
  | cons first rest ih =>
      rcases List.mem_cons.mp hf with rfl | hf
      · exact h.2.2.1
      · exact ih h.2.2.2 hf

theorem minimumFragment_le (h : Tiling start fragments stop) (hf : f ∈ fragments) :
    minimumFragment ≤ f.size := by
  induction fragments generalizing start with
  | nil => cases hf
  | cons first rest ih =>
      rcases List.mem_cons.mp hf with rfl | hf
      · exact Nat.le_of_dvd h.2.1 h.2.2.1
      · exact ih h.2.2.2 hf

theorem dvd_offset (h : Tiling start fragments stop) (hstart : minimumFragment ∣ start)
    (hf : f ∈ fragments) : minimumFragment ∣ f.offset := by
  induction fragments generalizing start with
  | nil => cases hf
  | cons first rest ih =>
      rcases h with ⟨hoffset, -, hsize, hrest⟩
      rcases List.mem_cons.mp hf with rfl | hf
      · rwa [hoffset]
      · exact ih hrest (Nat.dvd_add hstart hsize) hf

theorem apart (h : Tiling start fragments stop) (hf : f ∈ fragments) (hg : g ∈ fragments)
    (hne : f ≠ g) : f.offset + f.size ≤ g.offset ∨ g.offset + g.size ≤ f.offset := by
  induction fragments generalizing start with
  | nil => cases hf
  | cons first rest ih =>
      rcases h with ⟨hoffset, -, -, hrest⟩
      rcases List.mem_cons.mp hf with hf | hf <;> rcases List.mem_cons.mp hg with hg | hg
      · exact absurd (hf.trans hg.symm) hne
      · have hin := hrest.bounds hg
        subst hf
        omega
      · have hin := hrest.bounds hf
        subst hg
        omega
      · exact ih hrest hf hg

theorem eq_of_offset_eq (h : Tiling start fragments stop) (hf : f ∈ fragments)
    (hg : g ∈ fragments) (heq : f.offset = g.offset) : f = g := by
  by_cases hne : f = g
  · exact hne
  · have happart := h.apart hf hg hne
    have hsf := h.minimumFragment_le hf
    have hsg := h.minimumFragment_le hg
    simp only [minimumFragment] at hsf hsg
    omega

theorem nodup (h : Tiling start fragments stop) : (offsets fragments).Nodup := by
  induction fragments generalizing start with
  | nil => exact List.nodup_nil
  | cons first rest ih =>
      rcases h with ⟨hoffset, hpos, -, hrest⟩
      refine List.nodup_cons.mpr ⟨fun hmem => ?_, ih hrest⟩
      obtain ⟨f, hf, heq⟩ : ∃ f ∈ rest, f.offset = first.offset := List.mem_map.mp hmem
      have hin := hrest.bounds hf
      omega

theorem middle (h : Tiling start (left ++ f :: right) stop) :
    Tiling start left f.offset ∧ 0 < f.size ∧ minimumFragment ∣ f.size ∧
      Tiling (f.offset + f.size) right stop := by
  rcases append_iff.mp h with ⟨middle, hleft, hoffset, hpos, hsize, hright⟩
  subst hoffset
  exact ⟨hleft, hpos, hsize, hright⟩

theorem relabel (h : Tiling start (left ++ f :: right) stop) (used : Bool) :
    Tiling start (left ++ ⟨f.offset, f.size, used⟩ :: right) stop := by
  rcases h.middle with ⟨hleft, hpos, hsize, hright⟩
  exact append_iff.mpr ⟨f.offset, hleft, rfl, hpos, hsize, hright⟩

/-- A fragment is cut in two. -/
theorem cut {size : Nat} (h : Tiling start (left ++ f :: right) stop) (hpos : 0 < size)
    (hsize : minimumFragment ∣ size) (hlt : size < f.size) (used used' : Bool) :
    Tiling start (left ++ ⟨f.offset, size, used⟩ ::
      ⟨f.offset + size, f.size - size, used'⟩ :: right) stop := by
  rcases h.middle with ⟨hleft, -, hdvd, hright⟩
  have hend : f.offset + size + (f.size - size) = f.offset + f.size := by omega
  refine append_iff.mpr ⟨f.offset, hleft, rfl, hpos, hsize, rfl, Nat.sub_pos_of_lt hlt,
    Nat.dvd_sub hdvd hsize, ?_⟩
  rwa [hend]

/-- Two neighbours become one fragment. -/
theorem merge (h : Tiling start (left ++ f :: g :: right) stop) (used : Bool) :
    g.offset = f.offset + f.size ∧
      Tiling start (left ++ ⟨f.offset, f.size + g.size, used⟩ :: right) stop := by
  rcases h.middle with ⟨hleft, hpos, hsize, hoffset, -, hsize', hright⟩
  refine ⟨hoffset, append_iff.mpr ⟨f.offset, hleft, rfl, Nat.add_pos_left hpos _,
    Nat.dvd_add hsize hsize', ?_⟩⟩
  rwa [Nat.add_assoc] at hright

end Tiling

theorem Heap.totalSize_append (left right : List Fragment) :
    Heap.totalSize (left ++ right) = Heap.totalSize left + Heap.totalSize right := by
  induction left with
  | nil => simp [Heap.totalSize]
  | cons first rest ih => rw [List.cons_append, Heap.totalSize, Heap.totalSize, ih, Nat.add_assoc]

end CanNode
