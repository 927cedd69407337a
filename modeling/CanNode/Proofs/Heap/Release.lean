import CanNode.Proofs.Heap.Boundaries

/-!
# What a release does to the shape

A fragment that is given back is taken out of the list of fragments, grows by its free
neighbours (`Focus.mergeBefore`, `Focus.mergeAfter`) and goes to the bin of the size it has
then.  `Sound.free` says that freeing an allocated fragment never fails and what the heap is
afterwards.
-/

namespace CanNode

/-- The fragments of a heap with one of them in focus, which is free and in no bin. -/
structure Focus where
  left : List Fragment
  fragment : Fragment
  right : List Fragment
  chains : Chains

namespace Focus

def fragments (focus : Focus) : List Fragment :=
  focus.left ++ focus.fragment :: focus.right

/-- The fragment takes over the one before it, if that one is free. -/
def mergeBefore (focus : Focus) : Focus :=
  match focus.left.getLast? with
  | none => focus
  | some before =>
      if before.used then focus
      else {
        left := focus.left.dropLast
        fragment := ⟨before.offset, before.size + focus.fragment.size, false⟩
        right := focus.right
        chains := focus.chains.erase before }

def mergeAfter (focus : Focus) : Focus :=
  match focus.right with
  | [] => focus
  | after :: rest =>
      if after.used then focus
      else {
        left := focus.left
        fragment := ⟨focus.fragment.offset, focus.fragment.size + after.size, false⟩
        right := rest
        chains := focus.chains.erase after }

variable {focus : Focus}

theorem mergeBefore_cases (focus : Focus) :
    (focus.mergeBefore = focus ∧ ∀ g ∈ focus.left.getLast?, g.used = true) ∨
      ∃ init before, focus.left = init ++ [before] ∧ before.used = false ∧
        focus.mergeBefore = ⟨init, ⟨before.offset, before.size + focus.fragment.size, false⟩,
          focus.right, focus.chains.erase before⟩ := by
  unfold mergeBefore
  rcases focus.left.eq_nil_or_concat with hnil | ⟨init, before, hconcat⟩
  · exact .inl (by simp [hnil])
  · rw [List.concat_eq_append] at hconcat
    by_cases hused : before.used = true
    · exact .inl (by simp [hconcat, hused])
    · refine .inr ⟨init, before, hconcat, Bool.eq_false_iff.mpr hused, ?_⟩
      simp [hconcat, hused]

theorem mergeAfter_cases (focus : Focus) :
    (focus.mergeAfter = focus ∧ ∀ g ∈ focus.right.head?, g.used = true) ∨
      ∃ after rest, focus.right = after :: rest ∧ after.used = false ∧
        focus.mergeAfter = ⟨focus.left,
          ⟨focus.fragment.offset, focus.fragment.size + after.size, false⟩,
          rest, focus.chains.erase after⟩ := by
  unfold mergeAfter
  cases hright : focus.right with
  | nil => exact .inl (by simp)
  | cons after rest =>
      by_cases hused : after.used = true
      · exact .inl (by simp [hused])
      · exact .inr ⟨after, rest, rfl, Bool.eq_false_iff.mpr hused, by simp [hused]⟩

theorem mergeBefore_eq_self (h : ∀ g ∈ focus.left.getLast?, g.used = true) :
    focus.mergeBefore = focus := by
  rcases focus.mergeBefore_cases with ⟨heq, -⟩ | ⟨init, before, hleft, hfree, -⟩
  · exact heq
  · exact absurd (h before (by simp [hleft])) (by simp [hfree])

theorem mergeAfter_eq_self (h : ∀ g ∈ focus.right.head?, g.used = true) :
    focus.mergeAfter = focus := by
  rcases focus.mergeAfter_cases with ⟨heq, -⟩ | ⟨after, rest, hright, hfree, -⟩
  · exact heq
  · exact absurd (h after (by simp [hright])) (by simp [hfree])

theorem offset_mergeAfter (focus : Focus) :
    focus.mergeAfter.fragment.offset = focus.fragment.offset := by
  rcases focus.mergeAfter_cases with ⟨heq, -⟩ | ⟨after, rest, -, -, heq⟩ <;> rw [heq]

theorem filter_used_mergeBefore (hfree : focus.fragment.used = false) :
    focus.mergeBefore.fragments.filter (·.used) = focus.fragments.filter (·.used) := by
  rcases focus.mergeBefore_cases with ⟨heq, -⟩ | ⟨init, before, hleft, hbefore, heq⟩
  · rw [heq]
  · simp [heq, fragments, hleft, hbefore, hfree]

theorem filter_used_mergeAfter (hfree : focus.fragment.used = false) :
    focus.mergeAfter.fragments.filter (·.used) = focus.fragments.filter (·.used) := by
  rcases focus.mergeAfter_cases with ⟨heq, -⟩ | ⟨after, rest, hright, hafter, heq⟩
  · rw [heq]
  · simp [heq, fragments, hright, hafter, hfree]

theorem used_mergeBefore (hfree : focus.fragment.used = false) :
    focus.mergeBefore.fragment.used = false := by
  rcases focus.mergeBefore_cases with ⟨heq, -⟩ | ⟨init, before, -, -, heq⟩ <;> rw [heq]
  exact hfree

/-- After both merges the neighbours of the fragment are allocated. -/
theorem coalesced_merge (hleft : Coalesced focus.left) (hright : Coalesced focus.right) :
    Coalesced focus.mergeBefore.mergeAfter.fragments := by
  have hbefore : Coalesced focus.mergeBefore.left ∧ focus.mergeBefore.right = focus.right ∧
      ∀ g ∈ focus.mergeBefore.left.getLast?, g.used = true := by
    rcases focus.mergeBefore_cases with ⟨heq, hlast⟩ | ⟨init, before, hinit, hfree, heq⟩
    · rw [heq]
      exact ⟨hleft, rfl, hlast⟩
    · rw [hinit] at hleft
      rcases List.isChain_append.mp hleft with ⟨hchain, -, hborder⟩
      rw [heq]
      refine ⟨hchain, rfl, fun g hg => (hborder g hg before rfl).resolve_right ?_⟩
      simp [hfree]
  rcases hbefore with ⟨hleft', hright', hlast⟩
  have hafter : focus.mergeBefore.mergeAfter.left = focus.mergeBefore.left ∧
      Coalesced focus.mergeBefore.mergeAfter.right ∧
      ∀ g ∈ focus.mergeBefore.mergeAfter.right.head?, g.used = true := by
    rcases focus.mergeBefore.mergeAfter_cases with ⟨heq, hhead⟩ | ⟨after, rest, hrest, hfree, heq⟩
    · rw [heq, hright']
      exact ⟨rfl, hright, hright' ▸ hhead⟩
    · rw [← hright', hrest] at hright
      rcases List.isChain_cons.mp hright with ⟨hborder, hchain⟩
      rw [heq]
      refine ⟨rfl, hchain, fun g hg => (hborder g hg).resolve_left ?_⟩
      simp [hfree]
  rcases hafter with ⟨hleftEq, hright'', hhead⟩
  rw [fragments, hleftEq]
  refine List.isChain_append.mpr ⟨hleft', List.isChain_cons.mpr ⟨fun g hg => .inr (hhead g hg),
    hright''⟩, fun g hg _ _ => .inl (hlast g hg)⟩

theorem mem_mergeBefore (focus : Focus) {f : Fragment} (hf : f ∈ focus.left ++ focus.right)
    (hused : f.used = true) : f ∈ focus.mergeBefore.left ++ focus.mergeBefore.right := by
  rcases focus.mergeBefore_cases with ⟨heq, -⟩ | ⟨init, before, hleft, hfree, heq⟩
  · rwa [heq]
  · have hne := (Fragment.ne_of_used hfree hused).symm
    rw [heq]
    simpa [hleft, hne] using hf

theorem mem_mergeAfter (focus : Focus) {f : Fragment} (hf : f ∈ focus.left ++ focus.right)
    (hused : f.used = true) : f ∈ focus.mergeAfter.left ++ focus.mergeAfter.right := by
  rcases focus.mergeAfter_cases with ⟨heq, -⟩ | ⟨after, rest, hright, hfree, heq⟩
  · rwa [heq]
  · have hne := (Fragment.ne_of_used hfree hused).symm
    rw [heq]
    simpa [hright, hne] using hf

end Focus

namespace Heap

/-- A heap with one free fragment in no bin. -/
structure Focused (heap : Heap) (focus : Focus) : Prop where
  shaped : heap.Shaped focus.fragments (focus.left ++ focus.right) focus.chains
  free : focus.fragment.used = false

variable {heap : Heap} {focus : Focus} {left right : List Fragment} {chains : Chains}
  {x : Fragment}

namespace Focused

theorem mem_fragments {f : Fragment} (hf : f ∈ focus.left ++ focus.right) :
    f ∈ focus.fragments :=
  List.perm_middle.mem_iff.mpr (List.mem_cons_of_mem _ hf)

theorem mergeBefore (h : heap.Focused focus) :
    ∃ heap', heap.mergeBefore focus.fragment.offset =
        .ok (focus.mergeBefore.fragment.offset, heap') ∧
      heap'.Focused focus.mergeBefore ∧ heap'.usage = heap.usage ∧
      ∀ f ∈ focus.left ++ focus.right, f.used = true → AgreesOn f.Payload heap heap' := by
  have hx := h.shaped.tiled.addressable (f := focus.fragment) (by simp [Focus.fragments])
  have hprev := getLink_eq hx .prev
  rw [h.shaped.tiled.linkAt_eq.1] at hprev
  rcases focus.mergeBefore_cases with ⟨heq, hlast⟩ | ⟨init, before, hleft, hfree, heq⟩
  · refine ⟨heap, ?_, by rw [heq]; exact h, rfl, fun f _ _ => AgreesOn.refl _ _⟩
    rw [heq]
    cases hgetLast : focus.left.getLast? with
    | none =>
        simp [Heap.mergeBefore, hprev, hgetLast, bind, Except.bind, pure, Except.pure]
    | some g =>
        have hg : g ∈ focus.fragments := by
          simp [Focus.fragments, List.mem_of_getLast? hgetLast]
        have hused := get_eq (h.shaped.tiled.addressable hg) .used
        rw [h.shaped.tiled.marked g hg, hlast g hgetLast] at hused
        simp [Heap.mergeBefore, hprev, hgetLast, hused, bind, Except.bind, pure, Except.pure]
  · have hshaped : heap.Shaped (init ++ before :: focus.fragment :: focus.right)
        (init ++ before :: focus.right) focus.chains := by
      simpa [Focus.fragments, hleft] using h.shaped
    have hbefore : before ∈ init ++ before :: focus.fragment :: focus.right := by simp
    have hused := get_eq (hshaped.tiled.addressable hbefore) .used
    rw [hshaped.tiled.marked before hbefore, hfree] at hused
    rcases hshaped.unlink hfree with ⟨heap₁, hunlink, hshaped₁, husage₁, hagrees₁⟩
    rcases hshaped₁.join hfree with ⟨heap₂, hjoin, hshaped₂, husage₂, hagrees₂⟩
    refine ⟨heap₂, ?_, ⟨?_, ?_⟩, husage₂.trans husage₁, fun f hf hfused => ?_⟩
    · rw [heq]
      simp [Heap.mergeBefore, hprev, hleft, hused, hunlink, hjoin, bind, Except.bind, pure,
        Except.pure]
    · rw [heq]
      exact hshaped₂
    · rw [heq]
    · have hf₂ := focus.mem_mergeBefore hf hfused
      rw [heq] at hf₂
      have hf₁ : f ∈ init ++ before :: focus.fragment :: focus.right := by
        simpa [Focus.fragments, hleft] using mem_fragments hf
      exact (hagrees₁ f hf₁ hfused).trans (hagrees₂ f hf₂ hfused)

theorem mergeAfter (h : heap.Focused focus) :
    ∃ heap', heap.mergeAfter focus.fragment.offset = .ok heap' ∧
      heap'.Focused focus.mergeAfter ∧ heap'.usage = heap.usage ∧
      ∀ f ∈ focus.left ++ focus.right, f.used = true → AgreesOn f.Payload heap heap' := by
  have hx := h.shaped.tiled.addressable (f := focus.fragment) (by simp [Focus.fragments])
  have hnext := getLink_eq hx .next
  rw [h.shaped.tiled.linkAt_eq.2] at hnext
  rcases focus.mergeAfter_cases with ⟨heq, hhead⟩ | ⟨after, rest, hright, hfree, heq⟩
  · refine ⟨heap, ?_, by rw [heq]; exact h, rfl, fun f _ _ => AgreesOn.refl _ _⟩
    cases hfirst : focus.right.head? with
    | none =>
        simp [Heap.mergeAfter, hnext, hfirst, bind, Except.bind, pure, Except.pure]
    | some g =>
        have hg : g ∈ focus.fragments := by
          simp [Focus.fragments, List.mem_of_head? hfirst]
        have hused := get_eq (h.shaped.tiled.addressable hg) .used
        rw [h.shaped.tiled.marked g hg, hhead g hfirst] at hused
        simp [Heap.mergeAfter, hnext, hfirst, hused, bind, Except.bind, pure, Except.pure]
  · have hshaped : heap.Shaped (focus.left ++ focus.fragment :: after :: rest)
        (focus.left ++ after :: rest) focus.chains := by
      simpa [Focus.fragments, hright] using h.shaped
    have hafter : after ∈ focus.left ++ focus.fragment :: after :: rest := by simp
    have hused := get_eq (hshaped.tiled.addressable hafter) .used
    rw [hshaped.tiled.marked after hafter, hfree] at hused
    rcases hshaped.unlink hfree with ⟨heap₁, hunlink, hshaped₁, husage₁, hagrees₁⟩
    rcases hshaped₁.join h.free with ⟨heap₂, hjoin, hshaped₂, husage₂, hagrees₂⟩
    refine ⟨heap₂, ?_, ⟨?_, ?_⟩, husage₂.trans husage₁, fun f hf hfused => ?_⟩
    · simp [Heap.mergeAfter, hnext, hright, hused, hunlink, hjoin, bind, Except.bind]
    · rw [heq]
      exact hshaped₂
    · rw [heq]
    · have hf₂ := focus.mem_mergeAfter hf hfused
      rw [heq] at hf₂
      have hf₁ : f ∈ focus.left ++ focus.fragment :: after :: rest := by
        simpa [Focus.fragments, hright] using mem_fragments hf
      exact (hagrees₁ f hf₁ hfused).trans (hagrees₂ f hf₂ hfused)

end Focused

namespace Sound

/-- What freeing an allocated fragment leaves: the fragment with its free neighbours merged
into it. -/
def released (left : List Fragment) (x : Fragment) (right : List Fragment) (chains : Chains) :
    Focus :=
  (Focus.mergeBefore ⟨left, ⟨x.offset, x.size, false⟩, right, chains⟩).mergeAfter

theorem filter_used_released : (released left x right chains).fragments.filter (·.used) =
    (left ++ right).filter (·.used) := by
  rw [released, Focus.filter_used_mergeAfter (Focus.used_mergeBefore rfl),
    Focus.filter_used_mergeBefore rfl]
  simp [Focus.fragments]

theorem usage_release (h : heap.Sound (left ++ x :: right) chains) (hused : x.used = true) :
    ∃ usage, heap.usage.release x.size = .ok usage ∧ usage.capacity = heap.usage.capacity ∧
      usage.allocated + x.size = heap.usage.allocated ∧ usage.live + 1 = heap.usage.live ∧
      usage.allocated = totalSize ((left ++ right).filter (·.used)) ∧
      usage.live = ((left ++ right).filter (·.used)).length := by
  have hallocated := h.allocated
  have hlive := h.live
  simp only [List.filter_append, List.filter_cons, hused, if_true, totalSize_append, totalSize,
    List.length_append, List.length_cons] at hallocated hlive
  have henough : x.size ≤ heap.usage.allocated ∧ 0 < heap.usage.live := by omega
  refine ⟨_, if_pos henough, rfl, ?_, ?_, ?_, ?_⟩
  · exact Nat.sub_add_cancel henough.1
  · exact Nat.sub_add_cancel henough.2
  · simp only [List.filter_append, totalSize_append]
    omega
  · simp only [List.filter_append, List.length_append]
    omega

/-- Freeing an allocated fragment never fails. -/
theorem release (h : heap.Sound (left ++ x :: right) chains) (hused : x.used = true) :
    ∃ heap', heap.release x.offset = .ok heap' ∧
      heap'.Sound (released left x right chains).fragments
        ((released left x right chains).chains.push (released left x right chains).fragment) ∧
      heap'.usage.capacity = heap.usage.capacity ∧
      heap'.usage.allocated + x.size = heap.usage.allocated ∧
      heap'.usage.live + 1 = heap.usage.live ∧
      ∀ f ∈ left ++ right, f.used = true → AgreesOn f.Payload heap heap' := by
  have hmem : x ∈ left ++ x :: right := by simp
  have hsize := get_eq (h.shaped.tiled.addressable hmem) .size
  rw [h.shaped.tiled.sized x hmem] at hsize
  obtain ⟨usage, hrelease, hcapacity, hallocated, hlive, hallocated', hlive'⟩ :=
    h.usage_release hused
  -- the fragment itself is in no bin while free neighbours are taken out of theirs
  have hunfiled : heap.Shaped (left ++ x :: right) (left ++ right) chains :=
    ⟨h.shaped.tiled, h.shaped.binned, by simp, (Filed.iff_of_used hused).mp h.shaped.filed⟩
  obtain ⟨heap₁, hmark, hshaped₁, husage₁, hagrees₁⟩ :=
    (hunfiled.withUsage hcapacity).mark false
  have hfocused : heap₁.Focused ⟨left, ⟨x.offset, x.size, false⟩, right, chains⟩ :=
    ⟨hshaped₁, rfl⟩
  rcases hfocused.mergeBefore with ⟨heap₂, hbefore, hfocused₂, husage₂, hagrees₂⟩
  have hbefore : heap₁.mergeBefore x.offset = _ := hbefore
  rcases hfocused₂.mergeAfter with ⟨heap₃, hafter, hfocused₃, husage₃, hagrees₃⟩
  obtain ⟨heap₄, hlink, hshaped₄, husage₄, hagrees₄⟩ :=
    hfocused₃.shaped.link hfocused₃.free (List.Sublist.refl _)
  have husage : heap₄.usage = usage := husage₄.trans (husage₃.trans (husage₂.trans husage₁))
  rcases List.isChain_append.mp h.coalesced with ⟨hleft, hright, -⟩
  refine ⟨heap₄, ?_, ⟨hshaped₄, ?_, ?_, ?_⟩, ?_, ?_, ?_, fun f hf hfused => ?_⟩
  · simp only [Bool.toNat_false] at hmark
    simp only [Heap.release, hsize, hrelease, hmark, hbefore, hafter, bind, Except.bind]
    rw [Focus.offset_mergeAfter] at hlink
    exact hlink
  · exact Focus.coalesced_merge hleft (List.isChain_cons.mp hright).2
  · rw [filter_used_released, husage, hallocated']
  · rw [filter_used_released, husage, hlive']
  · rw [husage, hcapacity]
  · rw [husage, hallocated]
  · rw [husage, hlive]
  · have hf₀ : f ∈ left ++ x :: right := hunfiled.sublist.subset hf
    have hf₂ := Focus.mem_mergeBefore ⟨left, ⟨x.offset, x.size, false⟩, right, chains⟩ hf hfused
    have hf₃ := Focused.mem_fragments (Focus.mem_mergeAfter _ hf₂ hfused)
    have hstart : AgreesOn f.Payload heap heap₁ := hagrees₁ f hf₀
    exact ((hstart.trans (hagrees₂ f hf hfused)).trans (hagrees₃ f hf₂ hfused)).trans
      (hagrees₄ f hf₃ hfused)

/-- The block of an allocated fragment can be freed. -/
theorem free (h : heap.Sound (left ++ x :: right) chains) (hused : x.used = true) {block : Block}
    (hblock : block.offset = x.offset) : heap.free block = heap.release x.offset := by
  have hmem : x ∈ left ++ x :: right := by simp
  have hword := get_eq (h.shaped.tiled.addressable hmem) .used
  rw [h.shaped.tiled.marked x hmem, hused] at hword
  have hbounds := h.shaped.tiled.tiling.bounds hmem
  have hmin := h.shaped.tiled.tiling.minimumFragment_le hmem
  have hinside : ¬ heap.usage.capacity < block.start := by
    simp only [Block.start, hblock, headerSize, minimumFragment] at *
    omega
  rw [Heap.free, if_neg hinside, hblock, hword]
  rfl

end Sound

end Heap

end CanNode
