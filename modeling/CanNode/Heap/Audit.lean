import CanNode.Heap.Bins

/-!
# Audits

An audit reads a whole heap and says whether its structures agree with each other: the
fragments in address order, the usage counters, the bins and the mask of occupied bins.
-/

namespace CanNode

structure Fragment where
  offset : Nat
  size : Nat
  used : Bool
deriving DecidableEq

namespace Heap

/-- The fragments from `offset` on in address order.  There is no answer when a header
contradicts what went before it: its link back is not `prev`, its size is no positive multiple
of the smallest fragment, or it is free like its predecessor. -/
def walkFrom (heap : Heap) (fuel : Nat) (offset : Nat) (prev : Option Nat) (prevFree : Bool) :
    Except Fault (Option (List Fragment)) :=
  match fuel with
  | 0 => .error .endlessChain
  | fuel + 1 => do
      if (← heap.getLink offset .prev) ≠ prev then
        return none
      else
        let size ← heap.get offset .size
        if size < minimumFragment ∨ size % minimumFragment ≠ 0 then
          return none
        else
          let used := (← heap.get offset .used) == 1
          if !used && prevFree then
            return none
          else
            let fragment : Fragment := { offset, size, used }
            match ← heap.getLink offset .next with
            | none => return some [fragment]
            | some next =>
                let rest ← heap.walkFrom fuel next (some offset) (!used)
                return rest.map (fragment :: ·)

def walk (heap : Heap) : Except Fault (Option (List Fragment)) :=
  heap.walkFrom (heap.arena.size + 1) 0 none false

def totalSize : List Fragment → Nat
  | [] => 0
  | fragment :: rest => fragment.size + totalSize rest

def accountsFor (usage : Usage) (fragments : List Fragment) : Bool :=
  let used := fragments.filter (·.used)
  totalSize fragments == usage.capacity &&
    totalSize used == usage.allocated && used.length == usage.live

/-- Whether the fragments from a link on are free and belong to a bin. -/
def chainFits (heap : Heap) (fuel : Nat) (bin : Fin binCount) (link : Option Nat) :
    Except Fault Bool :=
  match link, fuel with
  | none, _ => .ok true
  | some _, 0 => .error .endlessChain
  | some fragment, fuel + 1 => do
      if (← heap.get fragment .used) ≠ 0 then
        return false
      else if binOf? (← heap.get fragment .size) ≠ some bin then
        return false
      else
        heap.chainFits fuel bin (← heap.getLink fragment .nextFree)

/-- Whether a bin holds fragments of its own class only, and is flagged when it holds any. -/
def binFits (heap : Heap) (bin : Fin binCount) : Except Fault Bool :=
  if heap.occupied.isFlagged bin ≠ (heap.bins.get bin).isSome then
    .ok false
  else
    heap.chainFits (heap.arena.size + 1) bin (heap.bins.get bin)

/-- Whether all structures of a heap agree with each other. -/
def audit (heap : Heap) : Except Fault Bool := do
  match ← heap.walk with
  | none => return false
  | some fragments =>
      if accountsFor heap.usage fragments then
        (List.finRange binCount).allM heap.binFits
      else
        return false

end Heap

end CanNode
