/-!
# Bin masks

One bit per bin says whether the bin holds any fragment.  `lowestFrom_eq_some_iff` says that
the scan for a bin finds the lowest flagged one at or above a bound.
-/

namespace CanNode

abbrev binCount : Nat := 32

abbrev BinMask := BitVec binCount

namespace BinMask

def isFlagged (mask : BinMask) (bin : Fin binCount) : Bool :=
  mask.getLsbD bin

def flag (mask : BinMask) (bin : Fin binCount) : BinMask :=
  mask ||| BitVec.twoPow binCount bin

def unflag (mask : BinMask) (bin : Fin binCount) : BinMask :=
  mask &&& ~~~ BitVec.twoPow binCount bin

def above (mask : BinMask) (bound : Fin binCount) : BinMask :=
  mask &&& (BitVec.allOnes binCount <<< bound.val)

/-- The lowest flagged bin at or above a bound. -/
def lowestFrom (mask : BinMask) (bound : Fin binCount) : Option (Fin binCount) :=
  if h : (mask.above bound).ctz.toNat < binCount then
    some ⟨(mask.above bound).ctz.toNat, h⟩
  else
    none

theorem isFlagged_flag (mask : BinMask) (bin other : Fin binCount) :
    (mask.flag bin).isFlagged other = (mask.isFlagged other || decide (other = bin)) := by
  simp [isFlagged, flag, Fin.ext_iff]

theorem isFlagged_unflag (mask : BinMask) (bin other : Fin binCount) :
    (mask.unflag bin).isFlagged other = (mask.isFlagged other && !decide (other = bin)) := by
  simp [isFlagged, unflag, Fin.ext_iff]

theorem isFlagged_above (mask : BinMask) (bound bin : Fin binCount) :
    (mask.above bound).isFlagged bin = (mask.isFlagged bin && decide (bound ≤ bin)) := by
  have hbin := bin.isLt
  have hdiff : bin.val - bound.val < binCount := Nat.lt_of_le_of_lt (Nat.sub_le ..) hbin
  rw [isFlagged, above, BitVec.getLsbD_and, BitVec.getLsbD_shiftLeft, BitVec.getLsbD_allOnes,
    isFlagged]
  by_cases hle : bound ≤ bin
  · have hlt : ¬ bin.val < bound.val := Nat.not_lt.mpr hle
    rw [decide_eq_true hbin, decide_eq_false hlt, decide_eq_true hdiff, decide_eq_true hle]
    rfl
  · have hlt : bin.val < bound.val := Nat.lt_of_not_le hle
    rw [decide_eq_true hlt, decide_eq_false hle, decide_eq_true hbin]
    rfl

private theorem ctz_lt_of_isFlagged {mask : BinMask} {bin : Fin binCount}
    (h : mask.isFlagged bin = true) : mask.ctz.toNat < binCount := by
  have hne : mask ≠ BitVec.zero binCount := by
    intro hzero
    rw [hzero] at h
    simp [isFlagged] at h
  have hlt := BitVec.ctz_lt_iff_ne_zero.mpr hne
  rwa [BitVec.lt_def] at hlt

private theorem isFlagged_ctz {mask : BinMask} (h : mask.ctz.toNat < binCount) :
    mask.isFlagged ⟨mask.ctz.toNat, h⟩ = true := by
  apply BitVec.getLsbD_true_ctz_of_ne_zero
  apply BitVec.ctz_lt_iff_ne_zero.mp
  rwa [BitVec.lt_def]

private theorem not_isFlagged_below_ctz {mask : BinMask} {bin : Fin binCount}
    (h : bin.val < mask.ctz.toNat) : mask.isFlagged bin = false :=
  BitVec.getLsbD_false_of_lt_ctz h

/-- The scan finds a bin exactly when it is flagged, not below the bound, and no flagged bin
stands between the bound and it. -/
theorem lowestFrom_eq_some_iff {mask : BinMask} {bound bin : Fin binCount} :
    mask.lowestFrom bound = some bin ↔
      mask.isFlagged bin = true ∧ bound ≤ bin ∧
        ∀ other, bound ≤ other → other < bin → mask.isFlagged other = false := by
  unfold lowestFrom
  constructor
  · intro h
    split at h
    · rename_i hlt
      cases h
      have hself := isFlagged_ctz hlt
      rw [isFlagged_above, Bool.and_eq_true, decide_eq_true_eq] at hself
      refine ⟨hself.1, hself.2, fun other hbound hother => ?_⟩
      have hbelow : (mask.above bound).isFlagged other = false := not_isFlagged_below_ctz hother
      simpa [isFlagged_above, hbound] using hbelow
    · cases h
  · intro ⟨hflag, hbound, hfirst⟩
    have habove : (mask.above bound).isFlagged bin = true := by
      simp [isFlagged_above, hflag, hbound]
    have hlt := ctz_lt_of_isFlagged habove
    have hself := isFlagged_ctz hlt
    rw [isFlagged_above, Bool.and_eq_true, decide_eq_true_eq] at hself
    have hle : bin.val ≤ (mask.above bound).ctz.toNat := by
      apply Nat.le_of_not_lt
      intro hbelow
      rw [hfirst _ hself.2 hbelow] at hself
      exact absurd hself.1 Bool.false_ne_true
    have hge : (mask.above bound).ctz.toNat ≤ bin.val := by
      apply Nat.le_of_not_lt
      intro hbeyond
      rw [not_isFlagged_below_ctz hbeyond] at habove
      exact absurd habove Bool.false_ne_true
    rw [dif_pos hlt]
    exact congrArg some (Fin.ext (Nat.le_antisymm hge hle))

/-- The scan finds nothing exactly when no bin at or above the bound is flagged. -/
theorem lowestFrom_eq_none_iff {mask : BinMask} {bound : Fin binCount} :
    mask.lowestFrom bound = none ↔ ∀ bin, bound ≤ bin → mask.isFlagged bin = false := by
  unfold lowestFrom
  constructor
  · intro h bin hbound
    split at h
    · cases h
    · rename_i hnone
      apply Bool.eq_false_iff.mpr
      intro hflag
      have habove : (mask.above bound).isFlagged bin = true := by
        simp [isFlagged_above, hflag, hbound]
      exact hnone (ctz_lt_of_isFlagged habove)
  · intro hnone
    rw [dif_neg]
    intro hlt
    have hself := isFlagged_ctz hlt
    rw [isFlagged_above, Bool.and_eq_true, decide_eq_true_eq] at hself
    rw [hnone _ hself.2] at hself
    exact absurd hself.1 Bool.false_ne_true

end BinMask

end CanNode
