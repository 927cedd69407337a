import CanNode.Engine.TailByte
import CanNode.Engine.Traced
import CanNode.Registry
import Mathlib.Data.Finset.Card

/-!
# Registrations are all or nothing

A registry that grew out of an empty one lists each of its topics once.  Because of that, the
test for room that comes before the engine is asked is exact: `Registry.Reachable.subscribe_settles`
says which of its answers a subscription gives, when the engine is asked, and that nothing is
registered unless the engine has opened the session.
-/

namespace CanNode

namespace Registry

variable {ρ : Type} {registry inserted : Registry ρ} {topic other : Topic} {receiver : ρ}

def topics (registry : Registry ρ) : List Topic :=
  registry.entries.map Prod.fst

theorem mem_topics : topic ∈ registry.topics ↔ registry.contains topic = true := by
  unfold topics contains find?
  induction registry.entries with
  | nil => simp
  | cons entry rest ih =>
      rw [List.map_cons, List.mem_cons, ih, List.lookup_cons]
      by_cases htopic : topic = entry.1
      · simp [htopic]
      · simp [htopic, beq_false_of_ne htopic]

theorem nodup_topics_insert (h : registry.insert topic receiver = some inserted)
    (hnodup : registry.topics.Nodup) : inserted.topics.Nodup := by
  unfold insert at h
  split at h
  · cases h
    have htopics : ∀ entry : Topic × ρ,
        (if entry.1 = topic then (topic, receiver) else entry).1 = entry.1 := by
      intro entry
      split
      · next htopic => exact htopic.symm
      · rfl
    simpa [topics, Function.comp_def, htopics] using hnodup
  · next hnew =>
      split at h
      · cases h
        have hnotin : topic ∉ registry.topics := fun hmem => hnew (mem_topics.mp hmem)
        have hne : ∀ held ∈ registry.topics, ∀ other ∈ [topic], held ≠ other := by
          intro held hheld other hother heq
          rw [heq, List.mem_singleton.mp hother] at hheld
          exact hnotin hheld
        simpa [topics] using List.nodup_append.mpr ⟨hnodup, by simp, hne⟩
      · cases h

theorem nodup_topics_erase (topic : Topic) (hnodup : registry.topics.Nodup) :
    (registry.erase topic).topics.Nodup :=
  hnodup.sublist (List.filter_sublist.map Prod.fst)

theorem contains_insert (h : registry.insert topic receiver = some inserted) :
    inserted.contains other = true ↔ other = topic ∨ registry.contains other = true := by
  rw [contains, find?_insert h other]
  by_cases hother : other = topic <;> simp [hother, contains]

theorem contains_erase : (registry.erase topic).contains other = true ↔
    other ≠ topic ∧ registry.contains other = true := by
  rw [contains, find?_erase]
  by_cases hother : other = topic <;> simp [hother, contains]

theorem capacity_insert (h : registry.insert topic receiver = some inserted) :
    inserted.capacity = registry.capacity := by
  unfold insert at h
  split at h
  · cases h
    rfl
  · split at h
    · cases h
      rfl
    · cases h

def keys (registry : Registry ρ) : Finset Topic :=
  registry.topics.toFinset

theorem mem_keys : topic ∈ registry.keys ↔ registry.contains topic = true := by
  rw [keys, List.mem_toFinset, mem_topics]

theorem card_keys_insert (h : registry.insert topic receiver = some inserted) :
    inserted.keys.card =
      if topic ∈ registry.keys then registry.keys.card else registry.keys.card + 1 := by
  have hkeys : inserted.keys = Insert.insert topic registry.keys := by
    ext other
    rw [Finset.mem_insert, mem_keys, mem_keys, contains_insert h]
  rw [hkeys, Finset.card_insert_eq_ite]

/-! ## One subscription -/

/-- The topic is new, and there are as many topics as there can be. -/
def IsFull (registry : Registry ρ) (capacity : Nat) (topic : Topic) : Prop :=
  topic ∉ registry.keys ∧ registry.keys.card = capacity

instance (registry : Registry ρ) (capacity : Nat) (topic : Topic) :
    Decidable (registry.IsFull capacity topic) :=
  inferInstanceAs (Decidable (_ ∧ _))

/-- What a registry of a capacity answers to a subscription, and what the subscription leaves. -/
structure Settles {σ : Type} [Engine σ] (registry : Registry ρ) (capacity : Nat) (engine : σ)
    (topic : Topic) (params : SessionParams) (receiver : ρ)
    (result : Except SubscribeError (Option ρ) × Registry ρ × σ) : Prop where
  invalidPort : ∀ port, result.1 = .error (.invalidPort port) ↔
    ¬ topic.port.fits topic.kind ∧ port = topic.port
  registryFull : result.1 = .error .registryFull ↔
    topic.port.fits topic.kind ∧ registry.IsFull capacity topic
  refused : ∀ error, result.1 = .error (.engine error) ↔
    topic.port.fits topic.kind ∧ ¬ registry.IsFull capacity topic ∧
      (Engine.subscribe topic params engine).1 = .error error
  accepted : ∀ previous, result.1 = .ok previous ↔
    topic.port.fits topic.kind ∧ ¬ registry.IsFull capacity topic ∧
      (Engine.subscribe topic params engine).1 = .ok () ∧ previous = registry.find? topic
  unasked : ¬ topic.port.fits topic.kind ∨ registry.IsFull capacity topic → result.2.2 = engine
  asked : topic.port.fits topic.kind → ¬ registry.IsFull capacity topic →
    result.2.2 = (Engine.subscribe topic params engine).2
  untouched : ∀ error, result.1 = .error error → result.2.1 = registry
  registered : ∀ previous, result.1 = .ok previous →
    (∀ other, result.2.1.find? other =
      if other = topic then some receiver else registry.find? other) ∧
    result.2.1.keys.card = if topic ∈ registry.keys then registry.keys.card
      else registry.keys.card + 1

section Subscribe

variable {capacity : Nat}

theorem isFull_iff (hcapacity : registry.capacity = capacity) (hnodup : registry.topics.Nodup) :
    registry.IsFull capacity topic ↔
      registry.contains topic = false ∧ registry.length = registry.capacity := by
  have hcard : registry.keys.card = registry.length := by
    rw [keys, List.toFinset_card_of_nodup hnodup, topics, List.length_map, length]
  rw [IsFull, mem_keys, hcard, hcapacity, Bool.not_eq_true]

/-- A topic that the test lets through has room: its registration does not fail any more. -/
theorem exists_insert (hroom : ¬ (registry.contains topic = false ∧
    registry.length = registry.capacity)) (receiver : ρ) :
    ∃ inserted, registry.insert topic receiver = some inserted := by
  refine Option.ne_none_iff_exists'.mp fun hnone => hroom ?_
  obtain ⟨hnew, hlength⟩ := (registry.insert_eq_none_iff topic receiver).mp hnone
  exact ⟨by rw [contains, hnew]; rfl, hlength⟩

variable {σ : Type} [Engine σ]

/-- Each of the answers, with what it leaves. -/
theorem settles_subscribe (hcapacity : registry.capacity = capacity)
    (hnodup : registry.topics.Nodup) (engine : σ) (topic : Topic) (params : SessionParams)
    (receiver : ρ) : registry.Settles capacity engine topic params receiver
      (registry.subscribe engine topic params receiver) := by
  by_cases hfits : topic.port.fits topic.kind = true
  case neg =>
    have hresult : registry.subscribe engine topic params receiver =
        (.error (.invalidPort topic.port), registry, engine) := by
      simp [subscribe, Topic.isValid, hfits]
    rw [hresult]
    constructor <;> simp [hfits, eq_comm]
  have hfull : registry.IsFull capacity topic ↔ _ := isFull_iff hcapacity hnodup
  by_cases hroom : registry.contains topic = false ∧ registry.length = registry.capacity
  case pos =>
    have hresult : registry.subscribe engine topic params receiver =
        (.error .registryFull, registry, engine) := by
      simp [subscribe, Topic.isValid, hfits, hroom]
    rw [hresult]
    constructor <;> simp [hfits, hfull.mpr hroom]
  have hnotFull : ¬ registry.IsFull capacity topic := mt hfull.mp hroom
  rcases hsession : Engine.subscribe topic params engine with ⟨error | ⟨⟩, asked⟩
  · have hresult : registry.subscribe engine topic params receiver =
        (.error (.engine error), registry, asked) := by
      simp [subscribe, Topic.isValid, hfits, hroom, hsession]
    rw [hresult]
    constructor <;> simp [hfits, hnotFull, hsession]
  · -- `subscribe` would still refuse here if the insertion failed, with the session open
    obtain ⟨inserted, hinsert⟩ := exists_insert hroom receiver
    have hresult : registry.subscribe engine topic params receiver =
        (.ok (registry.find? topic), inserted, asked) := by
      simp [subscribe, Topic.isValid, hfits, hroom, hsession, hinsert]
    rw [hresult]
    constructor
    case registered =>
      intro previous hprevious
      exact ⟨find?_insert hinsert, card_keys_insert hinsert⟩
    all_goals simp [hfits, hnotFull, hsession, eq_comm]

end Subscribe

/-! ## Registries that can be reached -/

/-- Registries that an empty one leads to, whatever engines are used. -/
inductive Reachable (capacity : Nat) : Registry ρ → Prop where
  | empty : Reachable capacity (.empty capacity)
  | subscribe {σ : Type} [Engine σ] {registry : Registry ρ} (h : Reachable capacity registry)
      (engine : σ) (topic : Topic) (params : SessionParams) (receiver : ρ) :
      Reachable capacity (registry.subscribe engine topic params receiver).2.1
  | unsubscribe {σ : Type} [Engine σ] {registry next : Registry ρ} {engine engine' : σ}
      {heap heap' : Heap} {topic : Topic} {removed : Bool} (h : Reachable capacity registry)
      (hrun : registry.unsubscribe engine heap topic = .ok (removed, next, engine', heap')) :
      Reachable capacity next

theorem subscribe_registry {σ : Type} [Engine σ] (registry : Registry ρ) (engine : σ)
    (topic : Topic) (params : SessionParams) (receiver : ρ) :
    let next := (registry.subscribe engine topic params receiver).2.1
    next = registry ∨ registry.insert topic receiver = some next := by
  intro next
  unfold next subscribe
  split
  · exact .inl rfl
  split
  · exact .inl rfl
  rcases Engine.subscribe topic params engine with ⟨error | ⟨⟩, asked⟩
  · exact .inl rfl
  cases hinsert : registry.insert topic receiver with
  | none => exact .inl rfl
  | some inserted => exact .inr rfl

theorem eq_erase_of_unsubscribe {σ : Type} [Engine σ] {next : Registry ρ} {engine engine' : σ}
    {heap heap' : Heap} {removed : Bool}
    (h : registry.unsubscribe engine heap topic = .ok (removed, next, engine', heap')) :
    next = registry ∨ next = registry.erase topic := by
  unfold unsubscribe at h
  split at h
  · obtain ⟨⟨closed, asked, left⟩, -, h⟩ := Fault.bind_eq_ok h
    cases h
    exact .inr rfl
  · cases h
    exact .inl rfl

namespace Reachable

variable {capacity : Nat}

theorem proper (h : Reachable capacity registry) :
    registry.capacity = capacity ∧ registry.topics.Nodup := by
  induction h with
  | empty => exact ⟨rfl, List.nodup_nil⟩
  | @subscribe σ _ registry _ engine topic params receiver ih =>
      obtain heq | hinsert := registry.subscribe_registry engine topic params receiver
      · rw [heq]
        exact ih
      · exact ⟨(capacity_insert hinsert).trans ih.1, nodup_topics_insert hinsert ih.2⟩
  | unsubscribe _ hrun ih =>
      obtain rfl | rfl := eq_erase_of_unsubscribe hrun
      · exact ih
      · exact ⟨ih.1, nodup_topics_erase _ ih.2⟩

/-- A subscription is refused for its port, then for want of room, then by the engine, and else
accepted.  Only in the last two cases the engine is asked, and then once. -/
theorem subscribe_settles (h : Reachable capacity registry) (topic : Topic)
    (params : SessionParams) (receiver : ρ) :
    (∀ {σ : Type} [Engine σ] (engine : σ), registry.Settles capacity engine topic params receiver
      (registry.subscribe engine topic params receiver)) ∧
    ∀ {σ : Type} [Engine σ] (traced : Traced σ),
      let calls := (registry.subscribe traced topic params receiver).2.2.calls
      (¬ topic.port.fits topic.kind ∨ registry.IsFull capacity topic → calls = traced.calls) ∧
      (topic.port.fits topic.kind → ¬ registry.IsFull capacity topic →
        calls = traced.calls ++
          [.subscribe topic params (Engine.subscribe topic params traced.engine).1]) := by
  obtain ⟨hcapacity, hnodup⟩ := h.proper
  have hsettles {σ : Type} [Engine σ] (engine : σ) :=
    settles_subscribe hcapacity hnodup engine topic params receiver
  refine ⟨fun engine => hsettles engine, fun traced => ⟨fun hunasked => ?_, fun hfits hroom => ?_⟩⟩
  · rw [(hsettles traced).unasked hunasked]
  · rw [(hsettles traced).asked hfits hroom]
    rfl

theorem subscribe_settles_sample :
    let engine : TailByteEngine := {}
    let held : Registry Nat :=
      ((Registry.empty 1).subscribe engine (.message (.ofNat 8191)) default 7).2.1
    Reachable 1 held ∧
      (held.subscribe engine (.request (.ofNat 512)) default 8).1 =
        .error (.invalidPort (.ofNat 512)) ∧
      (held.subscribe engine (.request (.ofNat 511)) default 8).1 = .error .registryFull ∧
      (held.subscribe engine (.message (.ofNat 8191)) default 8).1 = .ok (some 7) := by
  intro engine held
  have hheld : Reachable 1 held := .subscribe .empty ..
  refine ⟨hheld, ?_, ?_, ?_⟩
  · exact (((hheld.subscribe_settles _ _ _).1 engine).invalidPort _).mpr (by decide +kernel)
  · exact ((hheld.subscribe_settles _ _ _).1 engine).registryFull.mpr (by decide +kernel)
  · exact (((hheld.subscribe_settles _ _ _).1 engine).accepted _).mpr (by decide +kernel)

end Reachable

end Registry

end CanNode
