import CanNode.Proofs.Heap.Audit
import CanNode.Proofs.Heap.Ledger

/-!
# Where a block is placed

The scan of the mask answers like a search through all free fragments: it finds a bin exactly
when some free fragment is large enough, and the fragment that is picked is less than twice the
size of any that would do.  `Ledger.Reachable.allocate_places` says for every amount whether
there is a block for it, where it lies, and what a request leaves of the fragments.
-/

namespace CanNode

namespace Heap

/-- A fragment of `size` bytes is cut from the front of `x`, which stands between `left` and
`right` and is the first fragment of a bin. -/
structure Places (before after : Heap) (size : Nat) (bin : Fin binCount) (left : List Fragment)
    (x : Fragment) (right : List Fragment) : Prop where
  free : x.used = false
  fits : size ≤ x.size
  reaches : Nat.log 2 (size / minimumFragment) ≤ bin.val
  lowest : ∀ other : Fin binCount, Nat.log 2 (size / minimumFragment) ≤ other.val → other < bin →
    before.bins.get other = none
  first : before.bins.get bin = some x.offset
  tight : ∀ f ∈ left ++ x :: right, f.used = false → size ≤ f.size → x.size < 2 * f.size
  walk : after.walk = .ok (some (left ++ ⟨x.offset, size, true⟩ :: (x.rest size ++ right)))

variable {heap heap' : Heap} {fragments left right : List Fragment} {chains : Chains}
  {x f : Fragment} {bound bin : Fin binCount} {amount : Nat}

theorem lt_two_mul_of_binOf? {size other : Nat} {bin' : Fin binCount}
    (hdvd : minimumFragment ∣ size) (h : binOf? size = some bin) (h' : binOf? other = some bin')
    (hle : bin ≤ bin') : size < 2 * other := by
  have hhigh := (binOf?_eq_some_iff.mp h).2
  have hlow := (binOf?_eq_some_iff.mp h').1
  have hpow : 2 ^ bin.val ≤ 2 ^ bin'.val := Nat.pow_le_pow_right (by decide) hle
  rw [Nat.pow_succ] at hhigh
  have hunits : size / minimumFragment < 2 * (other / minimumFragment) := by omega
  calc size = minimumFragment * (size / minimumFragment) := (Nat.mul_div_cancel' hdvd).symm
    _ < minimumFragment * (2 * (other / minimumFragment)) :=
        Nat.mul_lt_mul_of_pos_left hunits (by decide)
    _ = 2 * (minimumFragment * (other / minimumFragment)) := Nat.mul_left_comm ..
    _ ≤ 2 * other := Nat.mul_le_mul_left 2 (Nat.mul_div_le other minimumFragment)

namespace Picks

theorem log_eq (h : heap.Picks fragments amount bound bin x) (hpos : 0 < amount) :
    Nat.log 2 (fragmentSize amount / minimumFragment) = bound.val :=
  (binOf?_eq_some_iff_log (Nat.le_of_dvd (fragmentSize_pos amount)
    (minimumFragment_dvd_fragmentSize hpos))).mp h.least

/-- Bins between the class of the request and the one that is picked hold nothing. -/
theorem bins_eq_none (h : heap.Picks fragments amount bound bin x)
    (hsound : heap.Sound fragments chains) {other : Fin binCount} (hle : bound ≤ other)
    (hlt : other < bin) : heap.bins.get other = none := by
  have hunflagged := (BinMask.lowestFrom_eq_some_iff.mp h.scan).2.2 other hle hlt
  rw [hsound.shaped.binned.head other]
  rw [hsound.shaped.binned.flagged other] at hunflagged
  exact Option.isNone_iff_eq_none.mp (Option.isSome_eq_false_iff.mp hunflagged)

/-- No fragment that would do is half as large. -/
theorem size_lt_two_mul (h : heap.Picks fragments amount bound bin x)
    (hsound : heap.Sound fragments chains) (hpos : 0 < amount) (hf : f ∈ fragments)
    (hfree : f.used = false) (hfits : fragmentSize amount ≤ f.size) : x.size < 2 * f.size := by
  rcases hsound.shaped.tiled.exists_bin hf with ⟨fbin, hfbin⟩
  have hbound := (fragmentSize_le_iff hpos h.least hfbin).mp hfits
  have hflag := hsound.isFlagged_iff.mpr ⟨f, hf, hfree, hfbin⟩
  have hle : bin ≤ fbin := by
    by_contra hlt
    have hnone := (BinMask.lowestFrom_eq_some_iff.mp h.scan).2.2 fbin hbound (Fin.not_le.mp hlt)
    exact Bool.false_ne_true (hnone.symm.trans hflag)
  exact lt_two_mul_of_binOf? (hsound.shaped.tiled.tiling.dvd_size h.mem) h.classed hfbin hle

end Picks

namespace Sound

theorem places (h : heap.Sound (left ++ x :: right) chains) (hcapacity : 0 < heap.usage.capacity)
    (hpos : 0 < amount) (hpicks : heap.Picks (left ++ x :: right) amount bound bin x) :
    ∃ heap', heap.allocate amount = .ok (some ⟨x.offset, amount⟩, heap') ∧
      heap.Places heap' (fragmentSize amount) bin left x right := by
  rcases h.allocate_of_picks hpos hpicks with ⟨heap', hrun, hsound, husage, -⟩
  have hcapacity' : 0 < heap'.usage.capacity := by
    rw [husage]
    exact hcapacity
  refine ⟨heap', hrun, hpicks.free, hpicks.fits hpos, ?_, fun other hle hlt => ?_, hpicks.head,
    fun f hf hfree hfits => ?_, hsound.walk_eq hcapacity'⟩
  · rw [hpicks.log_eq hpos]
    exact (BinMask.lowestFrom_eq_some_iff.mp hpicks.scan).2.1
  · rw [hpicks.log_eq hpos] at hle
    exact hpicks.bins_eq_none h hle hlt
  · exact hpicks.size_lt_two_mul h hpos hf hfree hfits

end Sound

end Heap

namespace Ledger

variable {arena : Arena} {ledger : Ledger}

/-- Every amount is answered.  There is a block for it when it is positive and some free
fragment is large enough, and the block is placed in one that is less than twice the size of any
other that would do.  Otherwise two counters tell of the request, unless it was for nothing. -/
theorem Reachable.allocate_places (h : Reachable arena ledger) :
    ∃ fragments, ledger.heap.walk = .ok (some fragments) ∧
      ∀ amount, ∃ answer heap', ledger.heap.allocate amount = .ok (answer, heap') ∧
        (answer.isSome = true ↔ 0 < amount ∧ ∃ f ∈ fragments, f.used = false ∧
          2 ^ Nat.clog 2 (amount + headerSize) ≤ f.size) ∧
        (∀ block ∈ answer, block.len = amount ∧ ∃ bin left x right,
          fragments = left ++ x :: right ∧ block.offset = x.offset ∧
          ledger.heap.Places heap' (2 ^ Nat.clog 2 (amount + headerSize)) bin left x right) ∧
        (answer = none → heap' = if amount = 0 then ledger.heap else
          { ledger.heap with usage :=
            { ledger.heap.usage with
              refused := ledger.heap.usage.refused + 1
              peakRequest := max ledger.heap.usage.peakRequest amount } }) := by
  rcases h.sound with ⟨⟨fragments, chains, hsound⟩, hcapacity, hpos⟩
  rw [← hcapacity] at hpos
  refine ⟨fragments, hsound.heap.walk_eq hpos, fun amount => ?_⟩
  rw [← Heap.fragmentSize_eq_two_pow]
  rcases Nat.eq_zero_or_pos amount with hzero | hamount
  · refine ⟨none, ledger.heap, if_pos hzero, by simp [hzero], by simp, fun _ => ?_⟩
    exact (if_pos hzero).symm
  obtain ⟨bound, bin, x, hpicks⟩ | hnone := hsound.heap.exists_picks_or_small hamount
  · have hsome : ∃ f ∈ fragments, f.used = false ∧ Heap.fragmentSize amount ≤ f.size :=
      ⟨x, hpicks.mem, hpicks.free, hpicks.fits hamount⟩
    rcases List.append_of_mem hpicks.mem with ⟨left, right, rfl⟩
    rcases hsound.heap.places hpos hamount hpicks with ⟨heap', hrun, hplaces⟩
    refine ⟨some ⟨x.offset, amount⟩, heap', hrun, iff_of_true rfl ⟨hamount, hsome⟩,
      fun block hblock => ?_, nofun⟩
    cases hblock
    exact ⟨rfl, bin, left, x, right, rfl, rfl, hplaces⟩
  · refine ⟨none, _, hsound.heap.allocate_none hamount hnone, iff_of_false nofun ?_, by simp,
      fun _ => (if_neg (Nat.ne_of_gt hamount)).symm⟩
    rintro ⟨-, f, hf, hfree, hfits⟩
    exact Nat.not_lt.mpr hfits (hnone f hf hfree)

private def mixedHistory : List Request :=
  [.allocate 70, .allocate 16, .free ⟨0, 70⟩]

private def mixedLedger : Ledger :=
  (replay (Arena.filled 500 0xAA) mixedHistory).get (by decide +kernel)

/-- A request for 120 bytes needs a fragment of 256.  The first free fragment is too small, so it
is cut from the last one, which is of 320. -/
theorem allocate_places_sample :
    Reachable (Arena.filled 500 0xAA) mixedLedger ∧
      mixedLedger.heap.walk =
        .ok (some [⟨0, 128, false⟩, ⟨128, 32, true⟩, ⟨160, 320, false⟩]) ∧
      ∃ block heap', mixedLedger.heap.allocate 120 = .ok (some block, heap') ∧ block = ⟨160, 120⟩ ∧
        ∃ bin left x right,
          [⟨0, 128, false⟩, ⟨128, 32, true⟩, ⟨160, 320, false⟩] = left ++ x :: right ∧
          block.offset = x.offset ∧ mixedLedger.heap.Places heap' 256 bin left x right := by
  have hreachable : Reachable (Arena.filled 500 0xAA) mixedLedger := reachable_replay _
  have hwalk : mixedLedger.heap.walk =
      .ok (some [⟨0, 128, false⟩, ⟨128, 32, true⟩, ⟨160, 320, false⟩]) := by decide +kernel
  have hsize : 2 ^ Nat.clog 2 (120 + headerSize) = 256 := by decide +kernel
  refine ⟨hreachable, hwalk, ?_⟩
  rcases hreachable.allocate_places with ⟨fragments, hwalk', hanswers⟩
  obtain rfl := Option.some.inj (Except.ok.inj (hwalk'.symm.trans hwalk))
  obtain ⟨answer, heap', hrun, hserved, hplaces, -⟩ := hanswers 120
  rw [hsize] at hserved hplaces
  rcases Option.isSome_iff_exists.mp (hserved.mpr (by decide)) with ⟨block, rfl⟩
  rcases hplaces block rfl with ⟨hlen, bin, left, x, right, hfragments, hoffset, hplaced⟩
  refine ⟨block, heap', hrun, ?_, bin, left, x, right, hfragments, hoffset, hplaced⟩
  have hblock : (mixedLedger.heap.allocate 120).toOption.map (·.1) = some (some ⟨160, 120⟩) := by
    decide +kernel
  rw [hrun] at hblock
  exact Option.some.inj (Option.some.inj hblock)

end Ledger

end CanNode
