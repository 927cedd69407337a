import CanNode.Proofs.Heap.Boundaries

/-!
# What allocation does to the shape

The fragment at the head of a bin is cut to size, marked, and what is left of it goes to its own
bin (`Shaped.takeFrom`).  `Heap.Picks` says which fragment that is.  `Sound.allocate_some` says
that a request is served whenever some free fragment is large enough; `Sound.allocate_none` that
otherwise nothing but two counters changes.
-/

namespace CanNode

namespace Fragment

/-- What is left of a fragment behind its first `size` bytes: nothing, or one free fragment. -/
def rest (fragment : Fragment) (size : Nat) : List Fragment :=
  if fragment.size = size then []
  else [⟨fragment.offset + size, fragment.size - size, false⟩]

theorem used_of_mem_rest {f g : Fragment} {size : Nat} (h : g ∈ f.rest size) :
    g.used = false := by
  unfold rest at h
  split at h
  · cases h
  · rw [List.mem_singleton.mp h]

end Fragment

section Counted

variable {left right rest : List Fragment} {x taken : Fragment}

theorem filter_used_of_free (hfree : x.used = false) :
    (left ++ x :: right).filter (·.used) = left.filter (·.used) ++ right.filter (·.used) := by
  simp [hfree]

theorem filter_used_of_used (hused : taken.used = true) (hrest : ∀ f ∈ rest, f.used = false) :
    (left ++ taken :: (rest ++ right)).filter (·.used) =
      left.filter (·.used) ++ taken :: right.filter (·.used) := by
  have hnone : rest.filter (·.used) = [] := by simpa using hrest
  simp [hused, hnone]

/-- Neighbours of a fragment that is taken out of a coalesced list are allocated, so it may
leave a free rest behind. -/
theorem Coalesced.take {size : Nat} (h : Coalesced (left ++ x :: right)) (hfree : x.used = false)
    (hused : taken.used = true) : Coalesced (left ++ taken :: (x.rest size ++ right)) := by
  rcases List.isChain_append.mp h with ⟨hleft, hx, -⟩
  rcases List.isChain_cons.mp hx with ⟨hnext, hright⟩
  refine List.isChain_append.mpr ⟨hleft, List.isChain_cons.mpr ⟨fun _ _ => .inl hused, ?_⟩, ?_⟩
  · unfold Fragment.rest
    split
    · exact hright
    · refine List.isChain_cons.mpr ⟨fun f hf => .inr ?_, hright⟩
      exact (hnext f hf).resolve_left (by simp [hfree])
  · intro f _ g hmem
    cases hmem
    exact .inr hused

end Counted

namespace Heap

variable {heap : Heap} {fragments left right : List Fragment} {chains : Chains}
  {x : Fragment} {bin : Fin binCount} {size amount : Nat}

namespace Shaped

theorem cutTo (h : heap.Shaped (left ++ x :: right) (left ++ right) chains)
    (hfree : x.used = false) (hpos : 0 < size) (hdvd : minimumFragment ∣ size)
    (hle : size ≤ x.size) :
    ∃ heap', heap.split x.offset size = .ok heap' ∧
      heap'.Shaped (left ++ ⟨x.offset, size, false⟩ :: (x.rest size ++ right))
        (left ++ (x.rest size ++ right)) ((x.rest size).foldl Chains.push chains) ∧
      heap'.usage = heap.usage ∧
      ∀ f ∈ left ++ right, f.used = true → AgreesOn f.Payload heap heap' := by
  by_cases hwhole : x.size = size
  · have hmem : x ∈ left ++ x :: right := by simp
    have hsize := h.tiled.sized x hmem
    have hrun : heap.split x.offset size = .ok heap := by
      simp [Heap.split, get_eq (h.tiled.addressable hmem), hsize, hwhole, bind, Except.bind, pure,
        Except.pure, minimumFragment]
    have hsame : (⟨x.offset, size, false⟩ : Fragment) = x := by
      rw [← hwhole, ← hfree]
    refine ⟨heap, hrun, ?_, rfl, fun f _ _ => AgreesOn.refl _ _⟩
    simpa [Fragment.rest, hwhole, hsame] using h
  · obtain ⟨heap', hrun, hshaped, husage, hagrees⟩ :=
      h.split hpos hdvd (Nat.lt_of_le_of_ne hle (Ne.symm hwhole)) hfree
    refine ⟨heap', hrun, ?_, husage, hagrees⟩
    simpa [Fragment.rest, hwhole] using hshaped

theorem takeFrom (h : heap.Shaped (left ++ x :: right) (left ++ x :: right) chains)
    (hfree : x.used = false) (hhead : heap.bins.get bin = some x.offset) (hpos : 0 < size)
    (hdvd : minimumFragment ∣ size) (hle : size ≤ x.size) (amount : Nat) :
    ∃ heap', heap.takeFrom bin size amount = .ok (⟨x.offset, amount % wordCount⟩, heap') ∧
      heap'.Shaped (left ++ ⟨x.offset, size, true⟩ :: (x.rest size ++ right))
        (left ++ ⟨x.offset, size, true⟩ :: (x.rest size ++ right))
        ((x.rest size).foldl Chains.push (chains.erase x)) ∧
      heap'.usage = heap.usage.acquire size ∧
      ∀ f ∈ left ++ right, f.used = true → AgreesOn f.Payload heap heap' := by
  rcases h.unlink hfree with ⟨heap₁, hunlink, hshaped₁, husage₁, hagrees₁⟩
  rcases hshaped₁.cutTo hfree hpos hdvd hle with ⟨heap₂, hsplit, hshaped₂, husage₂, hagrees₂⟩
  rcases hshaped₂.mark true with ⟨heap₃, hmark, hshaped₃, husage₃, hagrees₃⟩
  have htaken : (⟨x.offset, size, true⟩ : Fragment) ∈
      left ++ ⟨x.offset, size, true⟩ :: (x.rest size ++ right) := by simp
  have hsize := get_eq (hshaped₃.tiled.addressable htaken) .size
  rw [hshaped₃.tiled.sized _ htaken] at hsize
  have husage : heap₃.usage = heap.usage := husage₃.trans (husage₂.trans husage₁)
  refine ⟨{ heap₃ with usage := heap₃.usage.acquire size }, ?_, ?_, ?_, fun f hf hused => ?_⟩
  · simp only [Bool.toNat_true] at hmark hsize
    simp only [Heap.takeFrom, hhead, hunlink, hsplit, hmark, hsize, bind, Except.bind, pure,
      Except.pure]
  · have hfiled : heap₃.Shaped (left ++ ⟨x.offset, size, true⟩ :: (x.rest size ++ right))
        (left ++ ⟨x.offset, size, true⟩ :: (x.rest size ++ right)) _ :=
      ⟨hshaped₃.tiled, hshaped₃.binned, List.Sublist.refl _,
        (Filed.iff_of_used rfl).mpr hshaped₃.filed⟩
    exact hfiled.withUsage rfl
  · rw [husage]
  · have hf₁ : f ∈ left ++ x :: right := h.sublist.subset (by
      exact List.perm_middle.mem_iff.mpr (List.mem_cons_of_mem x hf))
    have hf₃ : f ∈ left ++ ⟨x.offset, size, false⟩ :: (x.rest size ++ right) := by
      simp only [List.mem_append, List.mem_cons] at hf ⊢
      exact hf.imp_right fun hf => .inr (.inr hf)
    exact ((hagrees₁ f hf₁ hused).trans (hagrees₂ f hf hused)).trans (hagrees₃ f hf₃)

end Shaped

/-- The fragment that a request is cut from: the first one of the lowest occupied bin at or above
the class of the size that serves the request. -/
structure Picks (heap : Heap) (fragments : List Fragment) (amount : Nat)
    (bound bin : Fin binCount) (x : Fragment) : Prop where
  least : binOf? (fragmentSize amount) = some bound
  scan : heap.occupied.lowestFrom bound = some bin
  mem : x ∈ fragments
  head : heap.bins.get bin = some x.offset
  free : x.used = false
  classed : binOf? x.size = some bin

theorem Picks.fits {bound : Fin binCount} (h : heap.Picks fragments amount bound bin x)
    (hpos : 0 < amount) : fragmentSize amount ≤ x.size :=
  (fragmentSize_le_iff hpos h.least h.classed).mpr (BinMask.lowestFrom_eq_some_iff.mp h.scan).2.1

namespace Sound

theorem exists_bound (h : heap.Sound fragments chains) (hpos : 0 < amount)
    (hle : fragmentSize amount ≤ heap.usage.capacity) :
    ∃ bound, binOf? (fragmentSize amount) = some bound := by
  have hmin := Nat.le_of_dvd (fragmentSize_pos amount) (minimumFragment_dvd_fragmentSize hpos)
  have hwithin := h.shaped.tiled.within
  have hbounded := h.shaped.tiled.bounded
  exact exists_binOf? hmin (by omega)

theorem isFlagged_iff (h : heap.Sound fragments chains) : heap.occupied.isFlagged bin = true ↔
    ∃ f ∈ fragments, f.used = false ∧ binOf? f.size = some bin := by
  rw [h.shaped.binned.flagged bin]
  constructor
  · intro hsome
    rcases Option.isSome_iff_exists.mp hsome with ⟨node, hnode⟩
    rcases h.shaped.of_mem_chain (List.mem_of_mem_head? hnode) with ⟨f, hf, -, hfree, hbin⟩
    exact ⟨f, hf, hfree, hbin⟩
  · intro hfragment
    rcases hfragment with ⟨f, hf, hfree, hbin⟩
    have hmem := h.shaped.filed.mem_chain hf hfree hbin
    exact List.isSome_head?.mpr (List.ne_nil_of_mem hmem)

/-- What the scan of the mask finds is a bin whose first fragment is picked. -/
theorem picks_of_lowestFrom (h : heap.Sound fragments chains) {bound : Fin binCount}
    (hbound : binOf? (fragmentSize amount) = some bound)
    (hscan : heap.occupied.lowestFrom bound = some bin) :
    ∃ x, heap.Picks fragments amount bound bin x := by
  have hflag := (BinMask.lowestFrom_eq_some_iff.mp hscan).1
  rw [h.shaped.binned.flagged bin] at hflag
  rcases Option.isSome_iff_exists.mp hflag with ⟨node, hnode⟩
  rcases h.shaped.of_mem_chain (List.mem_of_mem_head? hnode) with ⟨f, hf, rfl, hfree, hbin⟩
  exact ⟨f, hbound, hscan, hf, (h.shaped.binned.head bin).trans hnode, hfree, hbin⟩

theorem of_lowestFrom (h : heap.Sound fragments chains) (hpos : 0 < amount)
    {bound : Fin binCount} (hbound : binOf? (fragmentSize amount) = some bound)
    (hscan : heap.occupied.lowestFrom bound = some bin) :
    ∃ f ∈ fragments, heap.bins.get bin = some f.offset ∧ f.used = false ∧
      fragmentSize amount ≤ f.size := by
  rcases h.picks_of_lowestFrom hbound hscan with ⟨x, hpicks⟩
  exact ⟨x, hpicks.mem, hpicks.head, hpicks.free, hpicks.fits hpos⟩

/-- Some fragment is picked when some free fragment is large enough. -/
theorem exists_picks (h : heap.Sound fragments chains) (hpos : 0 < amount)
    (hsome : ∃ f ∈ fragments, f.used = false ∧ fragmentSize amount ≤ f.size) :
    ∃ bound bin x, heap.Picks fragments amount bound bin x := by
  rcases hsome with ⟨f, hf, hffree, hfits⟩
  have hcapacity : fragmentSize amount ≤ heap.usage.capacity := by
    have hbounds := h.shaped.tiled.tiling.bounds hf
    omega
  rcases h.exists_bound hpos hcapacity with ⟨bound, hbound⟩
  rcases h.shaped.tiled.exists_bin hf with ⟨fbin, hfbin⟩
  obtain ⟨bin, hscan⟩ : ∃ bin, heap.occupied.lowestFrom bound = some bin := by
    apply Option.ne_none_iff_exists'.mp
    intro hnone
    have hunflagged := BinMask.lowestFrom_eq_none_iff.mp hnone fbin
      ((fragmentSize_le_iff hpos hbound hfbin).mp hfits)
    exact Bool.eq_false_iff.mp hunflagged (h.isFlagged_iff.mpr ⟨f, hf, hffree, hfbin⟩)
  rcases h.picks_of_lowestFrom hbound hscan with ⟨x, hpicks⟩
  exact ⟨bound, bin, x, hpicks⟩

theorem exists_picks_or_small (h : heap.Sound fragments chains) (hpos : 0 < amount) :
    (∃ bound bin x, heap.Picks fragments amount bound bin x) ∨
      ∀ f ∈ fragments, f.used = false → f.size < fragmentSize amount := by
  by_cases hsome : ∃ f ∈ fragments, f.used = false ∧ fragmentSize amount ≤ f.size
  · exact .inl (h.exists_picks hpos hsome)
  · exact .inr fun f hf hfree => Nat.lt_of_not_le fun hle => hsome ⟨f, hf, hfree, hle⟩

/-- A request that no free fragment is large enough for changes two counters. -/
theorem allocate_none (h : heap.Sound fragments chains) (hpos : 0 < amount)
    (hnone : ∀ f ∈ fragments, f.used = false → f.size < fragmentSize amount) :
    heap.allocate amount =
      .ok (none, { heap with usage := (heap.usage.request amount).refuse }) := by
  rw [Heap.allocate, if_neg (Nat.ne_of_gt hpos)]
  by_cases hcapacity : heap.usage.capacity < fragmentSize amount
  · exact if_pos hcapacity
  · rcases h.exists_bound hpos (Nat.le_of_not_lt hcapacity) with ⟨bound, hbound⟩
    have hscan : heap.occupied.lowestFrom bound = none := by
      refine BinMask.lowestFrom_eq_none_iff.mpr fun bin hle => ?_
      apply Bool.eq_false_iff.mpr
      intro hflag
      rcases h.isFlagged_iff.mp hflag with ⟨f, hf, hfree, hbin⟩
      have hfits := (fragmentSize_le_iff hpos hbound hbin).mpr hle
      exact absurd (hnone f hf hfree) (Nat.not_lt.mpr hfits)
    have hcapacity' : ¬ (heap.usage.request amount).capacity < fragmentSize amount := hcapacity
    simp only [if_neg hcapacity', hbound, hscan]
    rfl

/-- The fragment that is picked serves the request. -/
theorem allocate_of_picks (h : heap.Sound (left ++ x :: right) chains) (hpos : 0 < amount)
    {bound : Fin binCount} (hpicks : heap.Picks (left ++ x :: right) amount bound bin x) :
    ∃ heap', heap.allocate amount = .ok (some ⟨x.offset, amount⟩, heap') ∧
      heap'.Sound (left ++ ⟨x.offset, fragmentSize amount, true⟩ ::
          (x.rest (fragmentSize amount) ++ right))
        ((x.rest (fragmentSize amount)).foldl Chains.push (chains.erase x)) ∧
      heap'.usage = (heap.usage.request amount).acquire (fragmentSize amount) ∧
      ∀ f ∈ left ++ right, f.used = true → AgreesOn f.Payload heap heap' := by
  have hfree := hpicks.free
  have hcapacity : fragmentSize amount ≤ heap.usage.capacity := by
    have hbounds := h.shaped.tiled.tiling.bounds hpicks.mem
    have hfits := hpicks.fits hpos
    omega
  have hrequest : Shaped { heap with usage := heap.usage.request amount } (left ++ x :: right)
      (left ++ x :: right) chains := h.shaped.withUsage rfl
  obtain ⟨heap', hrun, hshaped, husage, hagrees⟩ := hrequest.takeFrom hfree
    hpicks.head (fragmentSize_pos amount)
    (minimumFragment_dvd_fragmentSize hpos) (hpicks.fits hpos) amount
  refine ⟨heap', ?_, ⟨hshaped, ?_, ?_, ?_⟩, husage, hagrees⟩
  · have hlen : amount % wordCount = amount := by
      have hround := le_fragmentSize hpos
      have hwithin := h.shaped.tiled.within
      have hbounded := h.shaped.tiled.bounded
      simp only [noLink] at hbounded
      exact Nat.mod_eq_of_lt (by simp only [wordCount]; omega)
    have hcapacity' : ¬ (heap.usage.request amount).capacity < fragmentSize amount :=
      Nat.not_lt.mpr hcapacity
    rw [hlen] at hrun
    simp only [Heap.allocate, if_neg (Nat.ne_of_gt hpos), if_neg hcapacity', hpicks.least,
      hpicks.scan, hrun, bind, Except.bind, pure, Except.pure]
  · exact h.coalesced.take hfree rfl
  · rw [filter_used_of_used rfl fun g hg => Fragment.used_of_mem_rest hg, husage]
    have hallocated := h.allocated
    rw [filter_used_of_free hfree, totalSize_append] at hallocated
    simp only [totalSize_append, totalSize, Usage.acquire, Usage.request]
    omega
  · rw [filter_used_of_used rfl fun g hg => Fragment.used_of_mem_rest hg, husage]
    have hlive := h.live
    rw [filter_used_of_free hfree, List.length_append] at hlive
    simp only [List.length_append, List.length_cons, Usage.acquire, Usage.request]
    omega

/-- A request is served when some free fragment is large enough: from the first fragment of the
lowest occupied bin at or above its class. -/
theorem allocate_some (h : heap.Sound fragments chains) (hpos : 0 < amount)
    (hsome : ∃ f ∈ fragments, f.used = false ∧ fragmentSize amount ≤ f.size) :
    ∃ left x right heap', fragments = left ++ x :: right ∧ x.used = false ∧
      fragmentSize amount ≤ x.size ∧
      heap.allocate amount = .ok (some ⟨x.offset, amount⟩, heap') ∧
      heap'.Sound (left ++ ⟨x.offset, fragmentSize amount, true⟩ ::
          (x.rest (fragmentSize amount) ++ right))
        ((x.rest (fragmentSize amount)).foldl Chains.push (chains.erase x)) ∧
      heap'.usage = (heap.usage.request amount).acquire (fragmentSize amount) ∧
      ∀ f ∈ left ++ right, f.used = true → AgreesOn f.Payload heap heap' := by
  rcases h.exists_picks hpos hsome with ⟨bound, bin, x, hpicks⟩
  rcases List.append_of_mem hpicks.mem with ⟨left, right, rfl⟩
  rcases h.allocate_of_picks hpos hpicks with ⟨heap', hrun, hsound, husage, hagrees⟩
  exact ⟨left, x, right, heap', rfl, hpicks.free, hpicks.fits hpos, hrun, hsound, husage, hagrees⟩

end Sound

end Heap

end CanNode
