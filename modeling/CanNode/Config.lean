/-!
# Node configuration

The identity of a node, the width of the frames it exchanges, and the sizes it works with.  A node
identifier is a number of seven bits.  Classic frames carry up to eight data bytes, frames with a
flexible data rate up to 64.
-/

namespace CanNode

inductive ConfigError where
  | invalidMtu (bytes : Nat)
  | invalidNodeId (id : Nat)
  | mtuMismatch (node queue : Nat)
deriving DecidableEq

def ConfigError.message : ConfigError → String
  | .invalidMtu bytes => s!"Invalid MTU: {bytes}"
  | .invalidNodeId id => s!"Invalid node id: {id}"
  | .mtuMismatch node queue => s!"Receive queue MTU {queue} differs from node MTU {node}"

/-! ## Node identifiers -/

structure NodeId where
  val : Fin 128
deriving DecidableEq

namespace NodeId

def largest : Nat := 127

def toNat (id : NodeId) : Nat :=
  id.val

def ofNat? (n : Nat) : Option NodeId :=
  if h : n < 128 then some ⟨⟨n, h⟩⟩ else none

def ofNat (n : Nat) : Except ConfigError NodeId :=
  match ofNat? n with
  | some id => .ok id
  | none => .error (.invalidNodeId n)

/-- The number alone, without its higher bits. -/
def truncate (n : Nat) : NodeId :=
  ⟨⟨n % 128, Nat.mod_lt n (by decide)⟩⟩

instance : Ord NodeId := ⟨fun first second => compare first.toNat second.toNat⟩

theorem toNat_lt (id : NodeId) : id.toNat < 128 :=
  id.val.isLt

theorem toNat_injective {first second : NodeId} (h : first.toNat = second.toNat) :
    first = second := by
  cases first
  cases second
  exact congrArg NodeId.mk (Fin.ext h)

@[simp] theorem toNat_truncate (n : Nat) : (truncate n).toNat = n % 128 := rfl

end NodeId

/-! ## Frame widths -/

inductive Mtu where
  | classic
  | fd
deriving DecidableEq

namespace Mtu

instance : Inhabited Mtu := ⟨.classic⟩

def bytes : Mtu → Nat
  | .classic => 8
  | .fd => 64

def ofBytes : Nat → Except ConfigError Mtu
  | 8 => .ok .classic
  | 64 => .ok .fd
  | other => .error (.invalidMtu other)

def name : Mtu → String
  | .classic => "Classic"
  | .fd => "Fd"

instance : Ord Mtu := ⟨fun first second => compare first.bytes second.bytes⟩

end Mtu

/-! ## Configuration -/

def defaultTransmitCapacity : Nat := 32

structure NodeConfig where
  nodeId : Option NodeId := none
  mtu : Mtu := default
  transmitCapacity : Nat := defaultTransmitCapacity
deriving DecidableEq

namespace NodeConfig

def withNodeId (config : NodeConfig) (id : NodeId) : NodeConfig :=
  { config with nodeId := some id }

def withMtu (config : NodeConfig) (mtu : Mtu) : NodeConfig :=
  { config with mtu }

def withTransmitCapacity (config : NodeConfig) (capacity : Nat) : NodeConfig :=
  { config with transmitCapacity := capacity }

def isAnonymous (config : NodeConfig) : Bool :=
  config.nodeId.isNone

end NodeConfig

end CanNode
