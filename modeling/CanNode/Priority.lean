/-!
# Transfer priorities

Eight levels.  A level's number is what an identifier carries in its highest bits, so the
lower number is the more urgent one.
-/

namespace CanNode

inductive Priority where
  | exceptional
  | immediate
  | fast
  | high
  | nominal
  | low
  | slow
  | optional
deriving DecidableEq

namespace Priority

instance : Inhabited Priority := ⟨.nominal⟩

def level : Priority → Nat
  | .exceptional => 0
  | .immediate => 1
  | .fast => 2
  | .high => 3
  | .nominal => 4
  | .low => 5
  | .slow => 6
  | .optional => 7

/-- The level of a number, of which only the lowest three bits count. -/
def ofLevel (n : Nat) : Priority :=
  match n % 8 with
  | 0 => .exceptional
  | 1 => .immediate
  | 2 => .fast
  | 3 => .high
  | 4 => .nominal
  | 5 => .low
  | 6 => .slow
  | _ => .optional

def name : Priority → String
  | .exceptional => "Exceptional"
  | .immediate => "Immediate"
  | .fast => "Fast"
  | .high => "High"
  | .nominal => "Nominal"
  | .low => "Low"
  | .slow => "Slow"
  | .optional => "Optional"

instance : Ord Priority := ⟨fun first second => compare first.level second.level⟩

theorem level_lt (priority : Priority) : priority.level < 8 := by
  cases priority <;> decide

theorem ofLevel_level (priority : Priority) : ofLevel priority.level = priority := by
  cases priority <;> rfl

theorem level_ofLevel (n : Nat) : (ofLevel n).level = n % 8 := by
  have h : n % 8 < 8 := Nat.mod_lt n (by decide)
  unfold ofLevel
  generalize n % 8 = m at h
  match m, h with
  | 0, _ | 1, _ | 2, _ | 3, _ | 4, _ | 5, _ | 6, _ | 7, _ => rfl

end Priority

end CanNode
