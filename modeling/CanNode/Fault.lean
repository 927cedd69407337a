/-!
# Faults

A fault says that memory or an engine is too damaged for an operation to go on.  It is no error
of an interface: an error is an answer the caller can act on, a fault ends the run.
-/

namespace CanNode

/-- Reasons an operation cannot be carried out at all.  The last two stand for loops that take more
turns than a chain of links, or an engine's queue, can have. -/
inductive Fault where
  | outOfArena (address length : Nat)
  | outOfBlock (start length : Nat)
  | noBin (size : Nat)
  | emptyBin (index : Nat)
  | wordOverflow (value : Nat)
  | fragmentTooSmall (available wanted : Nat)
  | usageUnderflow
  | endlessChain
  | endlessQueue
deriving DecidableEq

namespace Fault

variable {β γ : Type} {first : Except Fault β} {rest : β → Except Fault γ} {result : γ}
  {fault : Fault}

theorem bind_eq_ok (h : first >>= rest = .ok result) :
    ∃ value, first = .ok value ∧ rest value = .ok result := by
  cases first with
  | error fault => cases h
  | ok value => exact ⟨value, rfl, h⟩

theorem bind_eq_error (h : first >>= rest = .error fault) :
    first = .error fault ∨ ∃ value, first = .ok value ∧ rest value = .error fault := by
  cases first with
  | error fault => cases h; exact .inl rfl
  | ok value => exact .inr ⟨value, rfl, h⟩

@[simp] theorem map_ok (f : β → γ) (value : β) :
    f <$> (.ok value : Except Fault β) = .ok (f value) :=
  rfl

@[simp] theorem map_error (f : β → γ) (fault : Fault) :
    f <$> (.error fault : Except Fault β) = .error fault :=
  rfl

theorem map_eq_ok {f : β → γ} (h : f <$> first = .ok result) :
    ∃ value, first = .ok value ∧ f value = result := by
  cases first with
  | error fault => cases h
  | ok value => exact ⟨value, rfl, Except.ok.inj h⟩

theorem map_eq_error {f : β → γ} (h : f <$> first = .error fault) : first = .error fault := by
  cases first with
  | error fault => cases h; rfl
  | ok value => cases h

end Fault

end CanNode
