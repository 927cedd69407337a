import CanNode.Proofs.Heap.Chains
import CanNode.Proofs.Heap.Tiling

/-!
# The shape of a heap

A heap is read as a list of fragments in address order and one list for every bin.
`Heap.Shaped` says that headers, bins and mask are those of the two readings, and which of the
fragments the bins hold.  While an allocation or a release is under way, the fragment it works
on is in no bin; at rest the bins hold every free fragment.
-/

namespace CanNode

/-- The addresses that a fragment offers to the holder of its block. -/
def Fragment.Payload (fragment : Fragment) (address : Nat) : Prop :=
  fragment.offset + headerSize ≤ address ∧ address < fragment.offset + fragment.size

namespace Chains

def push (chains : Chains) (fragment : Fragment) : Chains :=
  match Heap.binOf? fragment.size with
  | none => chains
  | some bin => Function.update chains bin (fragment.offset :: chains bin)

def erase (chains : Chains) (fragment : Fragment) : Chains :=
  match Heap.binOf? fragment.size with
  | none => chains
  | some bin => Function.update chains bin ((chains bin).erase fragment.offset)

variable {chains : Chains} {f : Fragment} {bin : Fin binCount}

theorem push_eq (h : Heap.binOf? f.size = some bin) :
    chains.push f = Function.update chains bin (f.offset :: chains bin) := by
  rw [push, h]

theorem erase_eq (h : Heap.binOf? f.size = some bin) :
    chains.erase f = Function.update chains bin ((chains bin).erase f.offset) := by
  rw [erase, h]

end Chains

/-- The bins hold the free ones among the fragments, each in the bin of its class. -/
def Filed (fragments : List Fragment) (chains : Chains) : Prop :=
  ∀ bin x, x ∈ chains bin ↔
    ∃ f ∈ fragments, f.offset = x ∧ f.used = false ∧ Heap.binOf? f.size = some bin

namespace Heap

/-- The headers of a heap describe these fragments. -/
structure Tiled (heap : Heap) (fragments : List Fragment) : Prop where
  bounded : heap.arena.size ≤ noLink
  within : heap.usage.capacity ≤ heap.arena.size
  tiling : Tiling 0 fragments heap.usage.capacity
  linked : Linked (heap.linkAt .next) (heap.linkAt .prev) none (offsets fragments) none
  sized : ∀ f ∈ fragments, heap.wordAt .size f.offset = f.size
  marked : ∀ f ∈ fragments, heap.wordAt .used f.offset = f.used.toNat

/-- The headers describe `fragments`, and the bins hold the free ones of `filed`. -/
structure Shaped (heap : Heap) (fragments filed : List Fragment) (chains : Chains) : Prop where
  tiled : heap.Tiled fragments
  binned : heap.Binned chains
  sublist : filed.Sublist fragments
  filed : Filed filed chains

variable {heap heap' : Heap} {fragments filed left right : List Fragment} {chains : Chains}
  {f g : Fragment} {bin : Fin binCount}

namespace Tiled

theorem addressable (h : heap.Tiled fragments) (hf : f ∈ fragments) :
    heap.Addressable f.offset := by
  refine ⟨h.tiling.dvd_offset (Nat.dvd_zero _) hf, ?_⟩
  have hin := h.tiling.bounds hf
  have hsize := h.tiling.minimumFragment_le hf
  have hwithin := h.within
  omega

theorem size_le (h : heap.Tiled fragments) (hf : f ∈ fragments) : f.size ≤ noLink := by
  have hin := h.tiling.bounds hf
  have hwithin := h.within
  have hbounded := h.bounded
  omega

theorem exists_bin (h : heap.Tiled fragments) (hf : f ∈ fragments) :
    ∃ bin, binOf? f.size = some bin :=
  exists_binOf? (h.tiling.minimumFragment_le hf) (h.size_le hf)

theorem linkAt_eq (h : heap.Tiled (left ++ f :: right)) :
    heap.linkAt .prev f.offset = (offsets left).getLast? ∧
      heap.linkAt .next f.offset = (offsets right).head? := by
  have hlinked : Linked (heap.linkAt .next) (heap.linkAt .prev) none
      (offsets left ++ f.offset :: offsets right) none := by
    simpa using h.linked
  rcases Linked.append_iff.mp hlinked with ⟨-, hprev, hnext, -⟩
  exact ⟨hprev.trans (Option.or_none ..), hnext.trans (Option.or_none ..)⟩

theorem linkFits_head (h : heap.Tiled fragments) (hsub : right ⊆ fragments) :
    heap.LinkFits (offsets right).head? := by
  intro x hx
  rcases List.mem_map.mp (List.mem_of_mem_head? hx) with ⟨f, hf, rfl⟩
  exact h.addressable (hsub hf)

theorem congr (h : heap.Tiled fragments) (hsize : heap'.arena.size = heap.arena.size)
    (hcapacity : heap'.usage.capacity = heap.usage.capacity)
    (hwords : ∀ f ∈ fragments, ∀ field : Field, field.InHeader →
      heap'.wordAt field f.offset = heap.wordAt field f.offset) : heap'.Tiled fragments where
  bounded := hsize ▸ h.bounded
  within := by
    rw [hsize, hcapacity]
    exact h.within
  tiling := hcapacity ▸ h.tiling
  linked := by
    have hlinks : ∀ x ∈ offsets fragments, ∀ field : Field, field.InHeader →
        heap'.linkAt field x = heap.linkAt field x := by
      intro x hx field hin
      rcases List.mem_map.mp hx with ⟨f, hf, rfl⟩
      rw [linkAt, linkAt, hwords f hf field hin]
    exact h.linked.congr (fun x hx => hlinks x hx .next (by decide))
      fun x hx => hlinks x hx .prev (by decide)
  sized f hf := (hwords f hf .size (by decide)).trans (h.sized f hf)
  marked f hf := (hwords f hf .used (by decide)).trans (h.marked f hf)

theorem keepsHeaders (h : heap.Tiled fragments) (hkeeps : heap.KeepsHeaders heap') :
    heap'.Tiled fragments :=
  h.congr hkeeps.size (congrArg Usage.capacity hkeeps.usage)
    fun f _ field hin => congrFun (hkeeps.words field hin) f.offset

/-- Words in the range of one fragment stay clear of the payload of another. -/
theorem clearOf_inside (h : heap.Tiled fragments) (hf : f ∈ fragments) (hg : g ∈ fragments)
    (hne : g ≠ f) {x : Nat} (hlow : g.offset ≤ x)
    (hhigh : x + minimumFragment ≤ g.offset + g.size) (field : Field) :
    ClearOf f.Payload x field := by
  intro address hin
  have hfield := field.offset_add_four_le
  have happart := h.tiling.apart hg hf hne
  have hstart := hin.1
  have hend := hin.2
  omega

/-- No word of another fragment lies in a payload, and no header word of its own. -/
theorem clearOf (h : heap.Tiled fragments) (hf : f ∈ fragments) (hg : g ∈ fragments)
    {field : Field} (hne : g ≠ f ∨ field.InHeader) : ClearOf f.Payload g.offset field := by
  by_cases heq : g = f
  · subst heq
    have hheader := hne.resolve_left fun hne => hne rfl
    have hword : field.offset + 4 ≤ headerSize := by
      revert hheader
      cases field <;> decide
    exact fun address hin => .inr (Nat.le_trans (by omega) hin.1)
  · exact h.clearOf_inside hf hg heq (Nat.le_refl _)
      (Nat.add_le_add_left (h.tiling.minimumFragment_le hg) _) field

end Tiled

end Heap

namespace Filed

variable {fragments left right : List Fragment} {chains : Chains} {f g : Fragment}
  {bin : Fin binCount}

theorem mem_chain (h : Filed fragments chains) (hf : f ∈ fragments) (hfree : f.used = false)
    (hbin : Heap.binOf? f.size = some bin) : f.offset ∈ chains bin :=
  (h bin f.offset).mpr ⟨f, hf, rfl, hfree, hbin⟩

theorem erase (h : Filed (left ++ g :: right) chains)
    (hnodup : (offsets (left ++ g :: right)).Nodup) (hdistinct : ∀ bin, (chains bin).Nodup)
    (hbin : Heap.binOf? g.size = some bin) : Filed (left ++ right) (chains.erase g) := by
  have hmem : ∀ f, f ∈ left ++ g :: right ↔ f = g ∨ f ∈ left ++ right := fun f =>
    List.perm_middle.mem_iff.trans List.mem_cons
  rw [Chains.erase_eq hbin]
  intro other x
  by_cases hother : other = bin
  · subst hother
    rw [Function.update_self, (hdistinct other).mem_erase_iff, h other x]
    constructor
    · intro hfiled
      rcases hfiled with ⟨hne, f, hf, rfl, hfree, hclass⟩
      have hf' := ((hmem f).mp hf).resolve_left fun heq => hne (heq ▸ rfl)
      exact ⟨f, hf', rfl, hfree, hclass⟩
    · intro hfiled
      rcases hfiled with ⟨f, hf, rfl, hfree, hclass⟩
      exact ⟨offset_ne_of_nodup hnodup hf, f, (hmem f).mpr (.inr hf), rfl, hfree, hclass⟩
  · rw [Function.update_of_ne hother, h other x]
    constructor
    · intro hfiled
      rcases hfiled with ⟨f, hf, rfl, hfree, hclass⟩
      have hne : f ≠ g := by
        intro heq
        subst heq
        exact hother (Option.some.inj (hclass.symm.trans hbin))
      exact ⟨f, ((hmem f).mp hf).resolve_left hne, rfl, hfree, hclass⟩
    · intro hfiled
      rcases hfiled with ⟨f, hf, rfl, hfree, hclass⟩
      exact ⟨f, (hmem f).mpr (.inr hf), rfl, hfree, hclass⟩

theorem push (h : Filed (left ++ right) chains) (hfree : g.used = false)
    (hbin : Heap.binOf? g.size = some bin) : Filed (left ++ g :: right) (chains.push g) := by
  have hmem : ∀ f, f ∈ left ++ g :: right ↔ f = g ∨ f ∈ left ++ right := fun f =>
    List.perm_middle.mem_iff.trans List.mem_cons
  rw [Chains.push_eq hbin]
  intro other x
  by_cases hother : other = bin
  · subst hother
    rw [Function.update_self, List.mem_cons, h other x]
    constructor
    · intro hfiled
      rcases hfiled with rfl | ⟨f, hf, rfl, hfree', hclass⟩
      · exact ⟨g, (hmem g).mpr (.inl rfl), rfl, hfree, hbin⟩
      · exact ⟨f, (hmem f).mpr (.inr hf), rfl, hfree', hclass⟩
    · intro hfiled
      rcases hfiled with ⟨f, hf, rfl, hfree', hclass⟩
      rcases (hmem f).mp hf with rfl | hf
      · exact .inl rfl
      · exact .inr ⟨f, hf, rfl, hfree', hclass⟩
  · rw [Function.update_of_ne hother, h other x]
    constructor
    · intro hfiled
      rcases hfiled with ⟨f, hf, rfl, hfree', hclass⟩
      exact ⟨f, (hmem f).mpr (.inr hf), rfl, hfree', hclass⟩
    · intro hfiled
      rcases hfiled with ⟨f, hf, rfl, hfree', hclass⟩
      have hne : f ≠ g := by
        intro heq
        subst heq
        exact hother (Option.some.inj (hclass.symm.trans hbin))
      exact ⟨f, ((hmem f).mp hf).resolve_left hne, rfl, hfree', hclass⟩

end Filed

namespace Heap

namespace Shaped

variable {heap heap' : Heap} {fragments filed left right : List Fragment} {chains : Chains}
  {f g : Fragment} {bin : Fin binCount} {x : Nat}

theorem mem (h : heap.Shaped fragments filed chains) (hf : f ∈ filed) : f ∈ fragments :=
  h.sublist.subset hf

theorem of_mem_chain (h : heap.Shaped fragments filed chains) (hx : x ∈ chains bin) :
    ∃ f ∈ filed, f.offset = x ∧ f.used = false ∧ binOf? f.size = some bin :=
  (h.filed bin x).mp hx

/-- The links of a bin lie outside the payload of every allocated fragment. -/
theorem clearOf_chain (h : heap.Shaped fragments filed chains) (hx : x ∈ chains bin)
    (hf : f ∈ fragments) (hused : f.used = true) (field : Field) :
    ClearOf f.Payload x field := by
  rcases h.of_mem_chain hx with ⟨g, hg, rfl, hfree, -⟩
  exact h.tiled.clearOf hf (h.mem hg) (.inl (Fragment.ne_of_used hfree hused))

/-- A shape is read from headers, from links of free fragments, from heads and from the mask. -/
theorem congr (h : heap.Shaped fragments filed chains)
    (hsize : heap'.arena.size = heap.arena.size)
    (hcapacity : heap'.usage.capacity = heap.usage.capacity) (hbins : heap'.bins = heap.bins)
    (hoccupied : heap'.occupied = heap.occupied)
    (hwords : ∀ f ∈ fragments, ∀ field : Field, field.InHeader ∨ f.used = false →
      heap'.wordAt field f.offset = heap.wordAt field f.offset) :
    heap'.Shaped fragments filed chains where
  tiled := h.tiled.congr hsize hcapacity fun f hf field hin => hwords f hf field (.inl hin)
  binned := by
    refine h.binned.congr hsize hbins hoccupied fun bin x hx field _ => ?_
    rcases h.of_mem_chain hx with ⟨f, hf, rfl, hfree, -⟩
    exact hwords f (h.mem hf) field (.inr hfree)
  sublist := h.sublist
  filed := h.filed

/-- A free fragment leaves its bin. -/
theorem unlink (h : heap.Shaped fragments (left ++ g :: right) chains) (hfree : g.used = false) :
    ∃ heap', heap.unlink g.offset = .ok heap' ∧
      heap'.Shaped fragments (left ++ right) (chains.erase g) ∧ heap'.usage = heap.usage ∧
      ∀ f ∈ fragments, f.used = true → AgreesOn f.Payload heap heap' := by
  have hg : g ∈ fragments := h.mem (by simp)
  rcases h.tiled.exists_bin hg with ⟨bin, hbin⟩
  obtain ⟨before, after, hchain⟩ :=
    List.append_of_mem (h.filed.mem_chain (f := g) (by simp) hfree hbin)
  rcases h.binned.unlink hchain with ⟨heap', hrun, hbinned, hkeeps, hagrees⟩
  have herase : chains.erase g = Function.update chains bin (before ++ after) := by
    have hdistinct := h.binned.distinct bin
    rw [hchain] at hdistinct
    have hnotMem : g.offset ∉ before := fun hmem =>
      (List.nodup_append.mp hdistinct).2.2 g.offset hmem g.offset List.mem_cons_self rfl
    rw [Chains.erase_eq hbin, hchain, List.erase_append_right _ hnotMem, List.erase_cons_head]
  refine ⟨heap', hrun, ⟨h.tiled.keepsHeaders hkeeps, herase ▸ hbinned, ?_, ?_⟩, hkeeps.usage, ?_⟩
  · exact ((List.sublist_cons_self g right).append_left left).trans h.sublist
  · exact h.filed.erase (h.tiled.tiling.nodup.sublist (h.sublist.map _)) h.binned.distinct hbin
  · intro f hf hused
    have hclear : ∀ y ∈ chains bin, ∀ field, ClearOf f.Payload y field := fun y hy =>
      h.clearOf_chain hy hf hused
    refine hagrees _ (fun y hy => hclear y ?_ _) fun y hy => hclear y ?_ _
    · rw [hchain]
      simp [List.mem_of_mem_head? hy]
    · rw [hchain]
      simp [List.mem_of_mem_getLast? hy]

/-- A free fragment enters its bin. -/
theorem link (h : heap.Shaped fragments (left ++ right) chains) (hfree : g.used = false)
    (hsublist : (left ++ g :: right).Sublist fragments) :
    ∃ heap', heap.link g.offset = .ok heap' ∧
      heap'.Shaped fragments (left ++ g :: right) (chains.push g) ∧ heap'.usage = heap.usage ∧
      ∀ f ∈ fragments, f.used = true → AgreesOn f.Payload heap heap' := by
  have hg : g ∈ fragments := hsublist.subset (by simp)
  rcases h.tiled.exists_bin hg with ⟨bin, hbin⟩
  have hfresh : g.offset ∉ chains bin := by
    intro hmem
    rcases h.of_mem_chain hmem with ⟨f, hf, hoffset, -, -⟩
    exact offset_ne_of_nodup (h.tiled.tiling.nodup.sublist (hsublist.map _)) hf hoffset
  obtain ⟨heap', hrun, hbinned, hkeeps, hagrees⟩ := h.binned.link (h.tiled.addressable hg)
    ((h.tiled.sized g hg).symm ▸ hbin) hfresh
  refine ⟨heap', hrun, ⟨h.tiled.keepsHeaders hkeeps, Chains.push_eq hbin ▸ hbinned, hsublist,
    h.filed.push hfree hbin⟩, hkeeps.usage, fun f hf hused => ?_⟩
  have hne := Fragment.ne_of_used hfree hused
  exact hagrees _ (h.tiled.clearOf hf hg (.inl hne)) (h.tiled.clearOf hf hg (.inl hne))
    fun y hy => h.clearOf_chain (List.mem_of_mem_head? hy) hf hused _

theorem withUsage (h : heap.Shaped fragments filed chains) {usage : Usage}
    (hcapacity : usage.capacity = heap.usage.capacity) :
    Shaped { heap with usage } fragments filed chains := by
  have hwords : ∀ field, wordAt { heap with usage } field = heap.wordAt field :=
    fun field => wordAt_congr_arena rfl field
  exact h.congr rfl hcapacity rfl rfl fun f _ field _ => congrFun (hwords field) f.offset

end Shaped

/-- A heap at rest: every free fragment is in a bin, no two neighbours are free, and the
counters account for the allocated fragments. -/
structure Sound (heap : Heap) (fragments : List Fragment) (chains : Chains) : Prop where
  shaped : heap.Shaped fragments fragments chains
  coalesced : Coalesced fragments
  allocated : heap.usage.allocated = totalSize (fragments.filter (·.used))
  live : heap.usage.live = (fragments.filter (·.used)).length

theorem Sound.withUsage {heap : Heap} {fragments : List Fragment} {chains : Chains}
    (h : heap.Sound fragments chains) {usage : Usage}
    (hcapacity : usage.capacity = heap.usage.capacity)
    (hallocated : usage.allocated = heap.usage.allocated) (hlive : usage.live = heap.usage.live) :
    Sound { heap with usage } fragments chains :=
  ⟨h.shaped.withUsage hcapacity, h.coalesced, hallocated.trans h.allocated, hlive.trans h.live⟩

end Heap

end CanNode
