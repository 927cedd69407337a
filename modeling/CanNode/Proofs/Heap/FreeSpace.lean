import CanNode.Proofs.Heap.Canonical

/-!
# Releasing memory never hurts

A release merges free fragments and files the result in another bin, but no free byte gets lost:
`Widens` says that every free fragment of one list lies within a free one of another.  Since a
request is served whenever some free fragment is large enough, whatever could be served before a
release can be served after it (`Ledger.Reachable.serves_after_free`).
-/

namespace CanNode

def Fragment.Within (f g : Fragment) : Prop :=
  g.offset ≤ f.offset ∧ f.offset + f.size ≤ g.offset + g.size

theorem Fragment.Within.refl (f : Fragment) : f.Within f :=
  ⟨Nat.le_refl _, Nat.le_refl _⟩

theorem Fragment.Within.trans {f g k : Fragment} (h : f.Within g) (h' : g.Within k) :
    f.Within k :=
  ⟨Nat.le_trans h'.1 h.1, Nat.le_trans h.2 h'.2⟩

theorem Fragment.Within.size_le {f g : Fragment} (h : f.Within g) : f.size ≤ g.size := by
  have hstart := h.1
  have hend := h.2
  omega

/-- Every free fragment lies within a free one of the other list. -/
def Widens (before after : List Fragment) : Prop :=
  ∀ f ∈ before, f.used = false → ∃ g ∈ after, g.used = false ∧ f.Within g

namespace Widens

variable {fragments fragments' fragments'' left right : List Fragment} {f g x : Fragment}

theorem refl (fragments : List Fragment) : Widens fragments fragments :=
  fun f hf hfree => ⟨f, hf, hfree, .refl f⟩

theorem trans (h : Widens fragments fragments') (h' : Widens fragments' fragments'') :
    Widens fragments fragments'' := by
  intro f hf hfree
  obtain ⟨g, hg, hfree', hin⟩ := h f hf hfree
  obtain ⟨k, hk, hfree'', hin'⟩ := h' g hg hfree'
  exact ⟨k, hk, hfree'', hin.trans hin'⟩

theorem mark (left : List Fragment) (x : Fragment) (right : List Fragment) :
    Widens (left ++ x :: right) (left ++ ⟨x.offset, x.size, false⟩ :: right) := by
  intro f hf hfree
  rcases List.mem_cons.mp (List.perm_middle.mem_iff.mp hf) with rfl | hf
  · exact ⟨⟨f.offset, f.size, false⟩, by simp, rfl, .refl f⟩
  · exact ⟨f, List.perm_middle.mem_iff.mpr (List.mem_cons_of_mem _ hf), hfree, .refl f⟩

theorem merge (h : g.offset = f.offset + f.size) :
    Widens (left ++ f :: g :: right) (left ++ ⟨f.offset, f.size + g.size, false⟩ :: right) := by
  have hfirst : f.Within ⟨f.offset, f.size + g.size, false⟩ := by
    refine ⟨Nat.le_refl _, ?_⟩
    show f.offset + f.size ≤ f.offset + (f.size + g.size)
    omega
  have hsecond : g.Within ⟨f.offset, f.size + g.size, false⟩ := by
    refine ⟨?_, ?_⟩
    · show f.offset ≤ g.offset
      omega
    · show g.offset + g.size ≤ f.offset + (f.size + g.size)
      omega
  intro k hk hfree
  simp only [List.mem_append, List.mem_cons] at hk
  obtain hk | rfl | rfl | hk := hk
  · exact ⟨k, by simp [hk], hfree, .refl k⟩
  · exact ⟨_, by simp, rfl, hfirst⟩
  · exact ⟨_, by simp, rfl, hsecond⟩
  · exact ⟨k, by simp [hk], hfree, .refl k⟩

end Widens

namespace Focus

variable {focus : Focus} {start stop : Nat}

theorem widens_mergeBefore (h : Tiling start focus.fragments stop) :
    Widens focus.fragments focus.mergeBefore.fragments ∧
      Tiling start focus.mergeBefore.fragments stop := by
  rcases focus.mergeBefore_cases with ⟨heq, -⟩ | ⟨init, before, hleft, -, heq⟩
  · rw [heq]
    exact ⟨.refl _, h⟩
  · have hfragments : focus.fragments = init ++ before :: focus.fragment :: focus.right := by
      simp [fragments, hleft]
    rw [hfragments] at h ⊢
    obtain ⟨hoffset, htiling⟩ := h.merge false
    rw [heq]
    exact ⟨.merge hoffset, htiling⟩

theorem widens_mergeAfter (h : Tiling start focus.fragments stop) :
    Widens focus.fragments focus.mergeAfter.fragments := by
  rcases focus.mergeAfter_cases with ⟨heq, -⟩ | ⟨after, rest, hright, -, heq⟩
  · rw [heq]
    exact .refl _
  · have hfragments : focus.fragments = focus.left ++ focus.fragment :: after :: rest := by
      simp [fragments, hright]
    rw [hfragments] at h ⊢
    rw [heq]
    exact .merge (h.merge false).1

end Focus

namespace Heap

variable {heap heap' : Heap} {fragments fragments' left right : List Fragment}
  {chains chains' : Chains} {x : Fragment} {amount more : Nat}

/-- The fragment that is given back, and every free one, lies within a free one afterwards. -/
theorem Sound.widens_released {start stop : Nat} (h : Tiling start (left ++ x :: right) stop)
    (chains : Chains) :
    Widens (left ++ ⟨x.offset, x.size, false⟩ :: right)
      (released left x right chains).fragments := by
  have hmarked : Tiling start (Focus.fragments ⟨left, ⟨x.offset, x.size, false⟩, right, chains⟩)
      stop := h.relabel false
  obtain ⟨hbefore, htiling⟩ := Focus.widens_mergeBefore hmarked
  exact hbefore.trans (Focus.widens_mergeAfter htiling)

/-! ## Requests -/

theorem Serves.of_answer {block : Block}
    (h : (heap.allocate amount).toOption.map (·.1) = some (some block)) : heap.Serves amount := by
  cases hrun : heap.allocate amount with
  | error _ => simp [hrun, Except.toOption] at h
  | ok result =>
      obtain ⟨answer, heap'⟩ := result
      obtain rfl : answer = some block := by simpa [hrun, Except.toOption] using h
      exact ⟨block, heap', hrun⟩

theorem fragmentSize_mono (h : amount ≤ more) : fragmentSize amount ≤ fragmentSize more := by
  rw [fragmentSize_eq_two_pow, fragmentSize_eq_two_pow]
  exact Nat.pow_le_pow_right (by decide) (Nat.clog_mono_right 2 (Nat.add_le_add_right h _))

/-- What is enough for a request is enough for a smaller one. -/
theorem Sound.serves_of_le (h : heap.Sound fragments chains) (hpos : 0 < amount)
    (hle : amount ≤ more) (hserves : heap.Serves more) : heap.Serves amount := by
  obtain ⟨-, f, hf, hfree, hfits⟩ := h.serves_iff.mp hserves
  exact h.serves_iff.mpr ⟨hpos, f, hf, hfree, Nat.le_trans (fragmentSize_mono hle) hfits⟩

/-- A heap whose free fragments lie within those of another serves no request that the other one
does not serve. -/
theorem Sound.serves_of_widens (h : heap.Sound fragments chains)
    (h' : heap'.Sound fragments' chains') (hwidens : Widens fragments fragments')
    (hserves : heap.Serves amount) : heap'.Serves amount := by
  obtain ⟨hpos, f, hf, hfree, hfits⟩ := h.serves_iff.mp hserves
  obtain ⟨g, hg, hfree', hin⟩ := hwidens f hf hfree
  exact h'.serves_iff.mpr ⟨hpos, g, hg, hfree', Nat.le_trans hfits hin.size_le⟩

end Heap

namespace Ledger

variable {arena : Arena} {ledger : Ledger}

/-- A heap that serves a request serves every smaller one.  It still serves the request after any
live block was given back, and then also one for as many bytes as the block had. -/
theorem Reachable.serves_after_free (h : Reachable arena ledger) :
    (∀ amount more, 0 < amount → amount ≤ more → ledger.heap.Serves more →
      ledger.heap.Serves amount) ∧
      ∀ block ∈ ledger.live, ∃ heap, ledger.heap.free block = .ok heap ∧ heap.Serves block.len ∧
        ∀ amount, ledger.heap.Serves amount → heap.Serves amount := by
  obtain ⟨⟨fragments, chains, hsound⟩, -⟩ := h.sound
  refine ⟨fun amount more hpos hle => hsound.heap.serves_of_le hpos hle, fun block hblock => ?_⟩
  obtain ⟨left, right, rfl⟩ := List.append_of_mem (hsound.mem_fragments hblock)
  obtain ⟨heap, hrelease, hheap, -⟩ := hsound.heap.release rfl
  have hwidens := Heap.Sound.widens_released hsound.heap.shaped.tiled.tiling chains
  refine ⟨heap, (hsound.heap.free rfl rfl).trans hrelease, ?_, fun amount => ?_⟩
  · obtain ⟨g, hg, hfree, hin⟩ := hwidens ⟨block.offset, Heap.fragmentSize block.len, false⟩
      (by simp [Block.fragment]) rfl
    exact hheap.serves_iff.mpr ⟨hsound.positive block hblock, g, hg, hfree, hin.size_le⟩
  · exact hsound.heap.serves_of_widens hheap
      ((Widens.mark left block.fragment right).trans hwidens)

private def crowdedLedger : Ledger :=
  (replay (Arena.filled 96 0xAA) [.allocate 8, .allocate 8]).get (by decide +kernel)

/-- The one free fragment, of 32 bytes, serves a request for 16 bytes.  The release of the block in
front of it takes it out of its bin, and the merged fragment serves the request instead. -/
theorem serves_after_free_sample :
    Reachable (Arena.filled 96 0xAA) crowdedLedger ∧ ⟨32, 8⟩ ∈ crowdedLedger.live ∧
      crowdedLedger.heap.Serves 16 ∧ crowdedLedger.heap.Serves 3 ∧
      ∃ heap, crowdedLedger.heap.free ⟨32, 8⟩ = .ok heap ∧ heap.bins.get 0 = none ∧
        heap.Serves 8 ∧ heap.Serves 16 := by
  have hreachable : Reachable (Arena.filled 96 0xAA) crowdedLedger := reachable_replay _
  obtain ⟨hblock, hanswer, hbins⟩ : ⟨32, 8⟩ ∈ crowdedLedger.live ∧
      (crowdedLedger.heap.allocate 16).toOption.map (·.1) = some (some ⟨64, 16⟩) ∧
      (crowdedLedger.heap.free ⟨32, 8⟩).toOption.map (·.bins.get 0) = some none := by
    decide +kernel
  have hserves := Heap.Serves.of_answer hanswer
  obtain ⟨hsmaller, hfrees⟩ := hreachable.serves_after_free
  obtain ⟨heap, hfree, hsame, hlater⟩ := hfrees ⟨32, 8⟩ hblock
  rw [hfree] at hbins
  exact ⟨hreachable, hblock, hserves, hsmaller 3 16 (by decide) (by decide) hserves, heap, hfree,
    Option.some.inj hbins, hsame, hlater 16 hserves⟩

end Ledger

end CanNode
