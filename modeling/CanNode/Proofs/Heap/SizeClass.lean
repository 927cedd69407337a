import CanNode.Heap.Allocate
import Mathlib.Algebra.Group.Nat.Defs
import Mathlib.Data.Nat.Log

/-!
# Size classes

The bin of a size is its class: the logarithm of the size in smallest fragments.  Every size a
fragment can have belongs to a bin, and whatever lies in a bin at or above the class of a power
of two is at least as large as that power.
-/

namespace CanNode

namespace Heap

variable {size other amount : Nat} {bin bin' : Fin binCount}

theorem binOf?_eq_some_iff : binOf? size = some bin ↔
    2 ^ bin.val ≤ size / minimumFragment ∧ size / minimumFragment < 2 ^ (bin.val + 1) := by
  unfold binOf?
  constructor
  · intro h
    split at h
    · rename_i hsize
      cases h
      exact (Nat.log2_eq_iff hsize.1).mp rfl
    · cases h
  · intro ⟨hle, hlt⟩
    have hpos : size / minimumFragment ≠ 0 :=
      Nat.ne_of_gt (Nat.lt_of_lt_of_le (Nat.two_pow_pos _) hle)
    have hlog := (Nat.log2_eq_iff hpos).mpr ⟨hle, hlt⟩
    rw [dif_pos ⟨hpos, hlog ▸ bin.isLt⟩]
    exact congrArg some (Fin.ext hlog)

/-- The bin of a size is the logarithm of the size in smallest fragments. -/
theorem binOf?_eq_some_iff_log (hmin : minimumFragment ≤ size) :
    binOf? size = some bin ↔ Nat.log 2 (size / minimumFragment) = bin.val := by
  have hpos : size / minimumFragment ≠ 0 := Nat.ne_of_gt (Nat.div_pos hmin (by decide))
  rw [binOf?_eq_some_iff, Nat.log_eq_iff (.inr ⟨by decide, hpos⟩)]

theorem exists_binOf? (hmin : minimumFragment ≤ size) (hmax : size ≤ noLink) :
    ∃ bin, binOf? size = some bin := by
  have hpos : size / minimumFragment ≠ 0 :=
    Nat.ne_of_gt (Nat.div_pos hmin (by decide))
  have hlt : (size / minimumFragment).log2 < binCount := by
    rw [Nat.log2_lt hpos]
    simp only [noLink, minimumFragment, binCount] at *
    omega
  exact ⟨⟨_, hlt⟩, dif_pos ⟨hpos, hlt⟩⟩

theorem binOf?_mono (h : binOf? size = some bin) (h' : binOf? other = some bin')
    (hle : size ≤ other) : bin ≤ bin' := by
  have hlow := (binOf?_eq_some_iff.mp h).1
  have hhigh := (binOf?_eq_some_iff.mp h').2
  have hdiv : size / minimumFragment ≤ other / minimumFragment := Nat.div_le_div_right hle
  have hpow : 2 ^ bin.val < 2 ^ (bin'.val + 1) := by omega
  exact Nat.le_of_lt_succ ((Nat.pow_lt_pow_iff_right (by decide)).mp hpow)

/-! ## Sizes that requests are rounded up to -/

theorem fragmentSize_eq_two_pow (amount : Nat) :
    fragmentSize amount = 2 ^ Nat.clog 2 (amount + headerSize) := by
  have hne : amount + headerSize - 1 ≠ 0 := by
    simp only [headerSize]
    omega
  have hlow := Nat.log2_self_le hne
  have hhigh := @Nat.lt_log2_self (amount + headerSize - 1)
  rw [fragmentSize, Nat.one_shiftLeft]
  congr 1
  apply Nat.le_antisymm
  · apply Nat.succ_le_of_lt
    rw [Nat.lt_clog_iff_pow_lt (by decide)]
    omega
  · rw [Nat.clog_le_iff_le_pow (by decide)]
    omega

theorem fragmentSize_eq_mul (hpos : 0 < amount) :
    ∃ exponent, fragmentSize amount = minimumFragment * 2 ^ exponent := by
  have hfit := le_fragmentSize hpos
  rw [fragmentSize_eq_two_pow] at hfit ⊢
  have hlog : 5 ≤ Nat.clog 2 (amount + headerSize) := by
    by_contra hlt
    have hpow : 2 ^ Nat.clog 2 (amount + headerSize) ≤ 2 ^ 4 :=
      Nat.pow_le_pow_right (by decide) (by omega)
    simp only [headerSize] at *
    omega
  refine ⟨Nat.clog 2 (amount + headerSize) - 5, ?_⟩
  have hsplit : Nat.clog 2 (amount + headerSize) =
      5 + (Nat.clog 2 (amount + headerSize) - 5) := by omega
  conv_lhs => rw [hsplit, Nat.pow_add]
  rfl

theorem minimumFragment_dvd_fragmentSize (hpos : 0 < amount) :
    minimumFragment ∣ fragmentSize amount := by
  rcases fragmentSize_eq_mul hpos with ⟨exponent, hexp⟩
  exact hexp ▸ Nat.dvd_mul_right ..

theorem fragmentSize_pos (amount : Nat) : 0 < fragmentSize amount := by
  rw [fragmentSize_eq_two_pow]
  exact Nat.two_pow_pos _

/-- A fragment serves a request when its bin does. -/
theorem fragmentSize_le_iff (hpos : 0 < amount) (h : binOf? (fragmentSize amount) = some bin)
    (h' : binOf? size = some bin') : fragmentSize amount ≤ size ↔ bin ≤ bin' := by
  constructor
  · exact binOf?_mono h h'
  · -- this way round it matters that the requested size is a power of two
    intro hle
    rcases fragmentSize_eq_mul hpos with ⟨exponent, hexp⟩
    have hdiv : fragmentSize amount / minimumFragment = 2 ^ exponent := by
      rw [hexp, Nat.mul_div_cancel_left _ (by decide)]
    have hlow := (binOf?_eq_some_iff.mp h).1
    have hhigh := (binOf?_eq_some_iff.mp h).2
    have hlow' := (binOf?_eq_some_iff.mp h').1
    rw [hdiv] at hlow hhigh
    have hcb : exponent < bin.val + 1 := (Nat.pow_lt_pow_iff_right (by decide)).mp hhigh
    have hmono : 2 ^ exponent ≤ 2 ^ bin'.val :=
      Nat.pow_le_pow_right (by decide) (Nat.le_trans (Nat.le_of_lt_succ hcb) hle)
    have hsize := Nat.mul_div_le size minimumFragment
    rw [hexp]
    exact Nat.le_trans (Nat.mul_le_mul_left _ (Nat.le_trans hmono hlow')) hsize

end Heap

end CanNode
