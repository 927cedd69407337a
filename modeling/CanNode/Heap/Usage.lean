import CanNode.Fault

/-!
# Usage counters

What a heap has handed out so far.  Sizes are those of whole fragments, headers included; only
`peakRequest` counts bytes as they were asked for.
-/

namespace CanNode

structure Usage where
  capacity : Nat := 0
  allocated : Nat := 0
  peakAllocated : Nat := 0
  peakRequest : Nat := 0
  refused : Nat := 0
  live : Nat := 0
deriving DecidableEq

namespace Usage

def request (usage : Usage) (amount : Nat) : Usage :=
  { usage with peakRequest := max usage.peakRequest amount }

def refuse (usage : Usage) : Usage :=
  { usage with refused := usage.refused + 1 }

def acquire (usage : Usage) (size : Nat) : Usage :=
  { usage with
    allocated := usage.allocated + size
    peakAllocated := max usage.peakAllocated (usage.allocated + size)
    live := usage.live + 1 }

def release (usage : Usage) (size : Nat) : Except Fault Usage :=
  if size ≤ usage.allocated ∧ 0 < usage.live then
    .ok { usage with allocated := usage.allocated - size, live := usage.live - 1 }
  else
    .error .usageUnderflow

end Usage

end CanNode
