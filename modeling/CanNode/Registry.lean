import CanNode.Engine.Basic

/-!
# Registries of receivers

A registry maps topics to their receivers, and holds a bounded number of them.  A topic is
registered only when the engine has opened its session, and removing it closes the session.
-/

namespace CanNode

/-- Handles completed transfers.  A receiver of type `ρ` acts on a world of type `ω`. -/
class Receiver (ρ ω : Type) where
  onTransfer : ρ → Delivery → ω → Except Fault ω

inductive SubscribeError where
  | registryFull
  | invalidPort (port : PortId)
  | engine (error : EngineError)
deriving DecidableEq

def SubscribeError.message : SubscribeError → String
  | .registryFull => "Subscription registry full"
  | .invalidPort port => s!"Port {port.toNat} out of range"
  | .engine error => error.message

structure Registry (ρ : Type) where
  capacity : Nat
  entries : List (Topic × ρ)
  bounded : entries.length ≤ capacity

namespace Registry

variable {ρ : Type}

def empty (capacity : Nat) : Registry ρ :=
  { capacity, entries := [], bounded := Nat.zero_le capacity }

def length (registry : Registry ρ) : Nat :=
  registry.entries.length

def isEmpty (registry : Registry ρ) : Bool :=
  registry.entries.isEmpty

def find? (registry : Registry ρ) (topic : Topic) : Option ρ :=
  registry.entries.lookup topic

def contains (registry : Registry ρ) (topic : Topic) : Bool :=
  (registry.find? topic).isSome

/-- Let a topic have a receiver.  There is no answer if the topic is new and has no room. -/
def insert (registry : Registry ρ) (topic : Topic) (receiver : ρ) :
    Option (Registry ρ) :=
  if registry.contains topic then
    some { registry with
      entries := registry.entries.map fun entry =>
        if entry.1 = topic then (topic, receiver) else entry
      bounded := by simpa using registry.bounded }
  else if h : registry.length < registry.capacity then
    some { registry with
      entries := registry.entries ++ [(topic, receiver)]
      bounded := by simpa [length, Nat.succ_le_iff] using h }
  else
    none

def erase (registry : Registry ρ) (topic : Topic) : Registry ρ :=
  { registry with
    entries := registry.entries.filter fun entry => entry.1 ≠ topic
    bounded := Nat.le_trans (List.length_filter_le ..) registry.bounded }

private theorem lookup_cons_entry (first other : Topic) (held : ρ) (rest : List (Topic × ρ)) :
    ((first, held) :: rest).lookup other =
      if other = first then some held else rest.lookup other := by
  by_cases hother : other = first
  · simp [hother]
  · rw [List.lookup_cons, beq_false_of_ne hother, if_neg hother]

private theorem lookup_replace (entries : List (Topic × ρ)) (topic other : Topic) (receiver : ρ)
    (hmem : (entries.lookup topic).isSome) :
    (entries.map fun entry => if entry.1 = topic then (topic, receiver) else entry).lookup other =
      if other = topic then some receiver else entries.lookup other := by
  by_cases hother : other = topic
  · subst hother
    induction entries with
    | nil => simp at hmem
    | cons entry rest ih =>
        obtain ⟨first, held⟩ := entry
        rw [lookup_cons_entry] at hmem
        by_cases hfirst : first = other
        · simp [hfirst]
        · have hne : ¬other = first := fun h => hfirst h.symm
          rw [if_neg hne] at hmem
          rw [List.map_cons, if_neg hfirst, lookup_cons_entry, if_neg hne, ih hmem, if_pos rfl,
            if_pos rfl]
  · rw [if_neg hother]
    clear hmem
    induction entries with
    | nil => rfl
    | cons entry rest ih =>
        obtain ⟨first, held⟩ := entry
        by_cases hfirst : first = topic
        · subst hfirst
          rw [List.map_cons, if_pos rfl, lookup_cons_entry, lookup_cons_entry, if_neg hother,
            if_neg hother, ih]
        · rw [List.map_cons, if_neg hfirst, lookup_cons_entry, lookup_cons_entry, ih]

private theorem lookup_append_entry (entries : List (Topic × ρ)) (topic other : Topic)
    (receiver : ρ) (hnew : entries.lookup topic = none) :
    (entries ++ [(topic, receiver)]).lookup other =
      if other = topic then some receiver else entries.lookup other := by
  induction entries with
  | nil => rw [List.nil_append, lookup_cons_entry]
  | cons entry rest ih =>
      obtain ⟨first, held⟩ := entry
      rw [lookup_cons_entry] at hnew
      by_cases hfirst : topic = first
      · simp [hfirst] at hnew
      · rw [if_neg hfirst] at hnew
        rw [List.cons_append, lookup_cons_entry, lookup_cons_entry, ih hnew]
        by_cases hother : other = topic
        · subst hother
          rw [if_neg hfirst]
          simp
        · rw [if_neg hother, if_neg hother]

private theorem lookup_erase (entries : List (Topic × ρ)) (topic other : Topic) :
    (entries.filter fun entry => entry.1 ≠ topic).lookup other =
      if other = topic then none else entries.lookup other := by
  induction entries with
  | nil => simp
  | cons entry rest ih =>
      obtain ⟨first, held⟩ := entry
      by_cases hfirst : first = topic
      · subst hfirst
        rw [List.filter_cons_of_neg (by simp), ih, lookup_cons_entry]
        by_cases hother : other = first
        · rw [if_pos hother, if_pos hother]
        · rw [if_neg hother, if_neg hother, if_neg hother]
      · rw [List.filter_cons_of_pos (by simpa using hfirst), lookup_cons_entry, ih,
          lookup_cons_entry]
        by_cases hother : other = topic
        · subst hother
          rw [if_pos rfl, if_neg (fun h => hfirst h.symm), if_pos rfl]
        · rw [if_neg hother, if_neg hother]

/-- A topic that has been inserted has its receiver, and every other topic the one it had. -/
theorem find?_insert {registry inserted : Registry ρ} {topic : Topic} {receiver : ρ}
    (h : registry.insert topic receiver = some inserted) (other : Topic) :
    inserted.find? other = if other = topic then some receiver else registry.find? other := by
  unfold insert at h
  split at h
  · next hmem =>
      cases h
      exact lookup_replace _ _ _ _ hmem
  · next hmem =>
      split at h
      · cases h
        exact lookup_append_entry _ _ _ _ (Option.not_isSome_iff_eq_none.mp hmem)
      · cases h

/-- A topic that has been erased has no receiver, and every other topic the one it had. -/
theorem find?_erase (registry : Registry ρ) (topic other : Topic) :
    (registry.erase topic).find? other =
      if other = topic then none else registry.find? other :=
  lookup_erase _ _ _

/-- Only a new topic in a full registry finds no room. -/
theorem insert_eq_none_iff (registry : Registry ρ) (topic : Topic) (receiver : ρ) :
    registry.insert topic receiver = none ↔
      registry.find? topic = none ∧ registry.length = registry.capacity := by
  have hbound : registry.length ≤ registry.capacity := registry.bounded
  unfold insert
  split
  · next hmem =>
      simp only [contains] at hmem
      simp [Option.isSome_iff_ne_none.mp hmem]
  · next hmem =>
      have hnone : registry.find? topic = none := Option.not_isSome_iff_eq_none.mp hmem
      split
      · next hroom => simp [hnone, Nat.ne_of_lt hroom]
      · next hfull => simp [hnone, Nat.le_antisymm hbound (Nat.le_of_not_lt hfull)]

/-- Register a receiver.  The engine is asked last, so that nothing is left to go wrong once it
has opened the session.  The answer is the receiver that the topic had before. -/
def subscribe {σ : Type} [Engine σ] (registry : Registry ρ) (engine : σ)
    (topic : Topic) (params : SessionParams) (receiver : ρ) :
    Except SubscribeError (Option ρ) × Registry ρ × σ :=
  if !topic.isValid then
    (.error (.invalidPort topic.port), registry, engine)
  else if !registry.contains topic && registry.length == registry.capacity then
    (.error .registryFull, registry, engine)
  else
    match Engine.subscribe topic params engine with
    | (.error error, engine) => (.error (.engine error), registry, engine)
    | (.ok (), engine) =>
        match registry.insert topic receiver with
        | none => (.error .registryFull, registry, engine)
        | some registered => (.ok (registry.find? topic), registered, engine)

/-- Remove a topic and close its session.  The answer says whether the topic was registered; if it
was not, the engine is not asked. -/
def unsubscribe {σ : Type} [Engine σ] (registry : Registry ρ) (engine : σ) (heap : Heap)
    (topic : Topic) : Except Fault (Bool × Registry ρ × σ × Heap) :=
  if registry.contains topic then do
    let (_, engine, heap) ← Engine.unsubscribe topic engine heap
    return (true, registry.erase topic, engine, heap)
  else
    .ok (false, registry, engine, heap)

def dispatch {ω : Type} [Receiver ρ ω] (registry : Registry ρ) (delivery : Delivery)
    (world : ω) : Except Fault (Bool × ω) :=
  match registry.find? ⟨delivery.metadata.kind, delivery.metadata.port⟩ with
  | none => .ok (false, world)
  | some receiver => do
      let world ← Receiver.onTransfer receiver delivery world
      return (true, world)

end Registry

end CanNode
