import CanNode.Heap.Free

/-!
# What counters a release changes

Nothing is assumed here about the headers that an operation reads, so these are statements about
what succeeds: whatever is linked, merged or given back, `Heap.release` counts one block, and no
other operation counts anything.
-/

namespace CanNode

namespace Usage

variable {usage after : Usage} {size : Nat}

theorem live_release (h : usage.release size = .ok after) : after.live + 1 = usage.live := by
  unfold release at h
  split at h
  · next hcovered =>
      cases h
      exact Nat.sub_add_cancel hcovered.2
  · cases h

theorem release_eq (h : usage.release size = .ok after) :
    after = { usage with allocated := after.allocated, live := after.live } := by
  unfold release at h
  split at h
  · cases h
    rfl
  · cases h

end Usage

namespace Heap

variable {heap heap' : Heap} {fragment merged : Nat} {block : Block}

theorem usage_set {field : Field} {value : Nat} (h : heap.set fragment field value = .ok heap') :
    heap'.usage = heap.usage := by
  simp only [set] at h
  split at h
  · cases h
  split at h
  · cases h
    rfl
  · cases h

theorem usage_write {start : Nat} {values : Bytes}
    (h : heap.write block start values = .ok heap') : heap'.usage = heap.usage := by
  unfold write at h
  split at h
  · cases h
  split at h
  · cases h
  · cases h
    rfl

theorem usage_setLinkOf {target link : Option Nat} {field : Field}
    (h : heap.setLinkOf target field link = .ok heap') : heap'.usage = heap.usage := by
  cases target with
  | none =>
      cases h
      rfl
  | some fragment => exact usage_set h

theorem usage_link (h : heap.link fragment = .ok heap') : heap'.usage = heap.usage := by
  obtain ⟨bin, -, h⟩ := Fault.bind_eq_ok h
  obtain ⟨heap₁, hnext, h⟩ := Fault.bind_eq_ok h
  obtain ⟨heap₂, hprev, h⟩ := Fault.bind_eq_ok h
  obtain ⟨heap₃, hhead, h⟩ := Fault.bind_eq_ok h
  cases h
  exact (usage_setLinkOf hhead).trans ((usage_set hprev).trans (usage_set hnext))

theorem usage_unlink (h : heap.unlink fragment = .ok heap') : heap'.usage = heap.usage := by
  obtain ⟨bin, -, h⟩ := Fault.bind_eq_ok h
  obtain ⟨next, -, h⟩ := Fault.bind_eq_ok h
  obtain ⟨prev, -, h⟩ := Fault.bind_eq_ok h
  obtain ⟨heap₁, hnext, h⟩ := Fault.bind_eq_ok h
  refine Eq.trans ?_ (usage_setLinkOf hnext)
  cases prev with
  | none =>
      cases h
      rfl
  | some before => exact usage_set h

theorem usage_join {left right : Nat} (h : heap.join left right = .ok heap') :
    heap'.usage = heap.usage := by
  obtain ⟨after, -, h⟩ := Fault.bind_eq_ok h
  obtain ⟨leftSize, -, h⟩ := Fault.bind_eq_ok h
  obtain ⟨rightSize, -, h⟩ := Fault.bind_eq_ok h
  obtain ⟨heap₁, hsize, h⟩ := Fault.bind_eq_ok h
  obtain ⟨heap₂, hnext, h⟩ := Fault.bind_eq_ok h
  exact (usage_setLinkOf h).trans ((usage_set hnext).trans (usage_set hsize))

theorem usage_mergeBefore (h : heap.mergeBefore fragment = .ok (merged, heap')) :
    heap'.usage = heap.usage := by
  obtain ⟨prev, -, h⟩ := Fault.bind_eq_ok h
  cases prev with
  | none =>
      cases h
      rfl
  | some before =>
      obtain ⟨used, -, h⟩ := Fault.bind_eq_ok h
      split at h
      · obtain ⟨heap₁, hunlink, h⟩ := Fault.bind_eq_ok h
        obtain ⟨heap₂, hjoin, h⟩ := Fault.bind_eq_ok h
        cases h
        exact (usage_join hjoin).trans (usage_unlink hunlink)
      · cases h
        rfl

theorem usage_mergeAfter (h : heap.mergeAfter fragment = .ok heap') :
    heap'.usage = heap.usage := by
  obtain ⟨next, -, h⟩ := Fault.bind_eq_ok h
  cases next with
  | none =>
      cases h
      rfl
  | some after =>
      obtain ⟨used, -, h⟩ := Fault.bind_eq_ok h
      split at h
      · obtain ⟨heap₁, hunlink, h⟩ := Fault.bind_eq_ok h
        exact (usage_join h).trans (usage_unlink hunlink)
      · cases h
        rfl

theorem usage_release (h : heap.release fragment = .ok heap') :
    ∃ size, heap.usage.release size = .ok heap'.usage := by
  obtain ⟨size, -, h⟩ := Fault.bind_eq_ok h
  obtain ⟨usage, husage, h⟩ := Fault.bind_eq_ok h
  obtain ⟨heap₁, hmark, h⟩ := Fault.bind_eq_ok h
  obtain ⟨⟨merged, heap₂⟩, hbefore, h⟩ := Fault.bind_eq_ok h
  obtain ⟨heap₃, hafter, h⟩ := Fault.bind_eq_ok h
  refine ⟨size, ?_⟩
  rw [usage_link h, usage_mergeAfter hafter, usage_mergeBefore hbefore, usage_set hmark, husage]

/-- Giving a block back changes no counters but those of what is handed out. -/
theorem usage_free (h : heap.free block = .ok heap') : heap'.usage =
    { heap.usage with allocated := heap'.usage.allocated, live := heap'.usage.live } := by
  unfold free at h
  split at h
  · cases h
    rfl
  obtain ⟨used, -, h⟩ := Fault.bind_eq_ok h
  split at h
  · obtain ⟨size, husage⟩ := usage_release h
    exact Usage.release_eq husage
  · cases h
    rfl

theorem refused_free (h : heap.free block = .ok heap') :
    heap'.usage.refused = heap.usage.refused := by
  rw [usage_free h]

end Heap

end CanNode
