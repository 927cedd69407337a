import CanNode.Engine.TailByte

/-!
# Transmit queues of engines

A node relies on little of an engine's queue: that it is a finite sequence which is looked at and
shortened at its head, and that nothing but a push puts frames into it.  `TailByteEngine.conserves`
says that a tail-byte engine has such a queue.
-/

namespace CanNode

namespace Engine

variable {σ : Type} [Engine σ]

/-- What waits for transmission is a sequence, looked at and shortened at its head. -/
structure Queues (queue : σ → List QueuedFrame) : Prop where
  peek : ∀ engine, Engine.peek engine = (queue engine).head?
  pop : ∀ engine, (Engine.pop engine).1 = (queue engine).head?
  rest : ∀ engine, queue (Engine.pop engine).2 = (queue engine).tail
  pending : ∀ engine, Engine.pending engine = (queue engine).length

/-- Frames enter the sequence only when they are pushed, as many as the engine announces. -/
structure Conserves (queue : σ → List QueuedFrame) : Prop extends Queues queue where
  configure : ∀ config engine, queue (Engine.configure config engine) = queue engine
  accept : ∀ {frame engine heap outcome next heap'},
    Engine.accept frame engine heap = .ok (outcome, next, heap') → queue next = queue engine
  subscribe : ∀ topic params engine,
    queue (Engine.subscribe topic params engine).2 = queue engine
  unsubscribe : ∀ {topic engine heap closed next heap'},
    Engine.unsubscribe topic engine heap = .ok (closed, next, heap') → queue next = queue engine
  push : ∀ {deadline metadata payload engine heap count next heap'},
    Engine.push deadline metadata payload engine heap = .ok (.ok count, next, heap') →
      ∃ inserted, inserted.length = count ∧ (queue next).Perm (queue engine ++ inserted)
  refuse : ∀ {deadline metadata payload engine heap error next heap'},
    Engine.push deadline metadata payload engine heap = .ok (.error error, next, heap') →
      queue next = queue engine

namespace Queues

variable {queue : σ → List QueuedFrame} {engine next : σ} {head frame : QueuedFrame}

/-- What is popped was the head. -/
theorem queue_eq_cons (h : Queues queue) (hpop : Engine.pop engine = (some frame, next)) :
    queue engine = frame :: queue next := by
  have hhead := h.pop engine
  have hrest := h.rest engine
  rw [hpop] at hhead hrest
  obtain ⟨rest, hqueue⟩ := List.head?_eq_some_iff.mp hhead.symm
  rw [hrest, hqueue, List.tail_cons]

theorem eq_of_peek (h : Queues queue) (hpeek : Engine.peek engine = some head)
    (hpop : Engine.pop engine = (some frame, next)) : frame = head := by
  rw [h.peek, h.queue_eq_cons hpop] at hpeek
  exact Option.some.inj hpeek

theorem pop_ne_none (h : Queues queue) (hpeek : Engine.peek engine = some head) :
    Engine.pop engine ≠ (none, next) := by
  intro hpop
  have hhead := h.pop engine
  rw [hpop, ← h.peek, hpeek] at hhead
  cases hhead

end Queues

theorem Conserves.queue_subscribe {queue : σ → List QueuedFrame} {topic : Topic}
    {params : SessionParams} {answer : Except EngineError Unit} {engine next : σ}
    (h : Conserves queue) (hsubscribe : Engine.subscribe topic params engine = (answer, next)) :
    queue next = queue engine := by
  simpa [hsubscribe] using h.subscribe topic params engine

end Engine

namespace TailByteEngine

theorem insert_perm (frame : QueuedFrame) (queue : List QueuedFrame) :
    (insert frame queue).Perm (frame :: queue) := by
  induction queue with
  | nil => exact .refl _
  | cons queued rest ih =>
      unfold insert
      split
      · exact .refl _
      · exact (ih.cons queued).trans (.swap frame queued rest)

theorem foldl_insert_perm (frames queue : List QueuedFrame) :
    (frames.foldl (fun queue frame => insert frame queue) queue).Perm (queue ++ frames) := by
  induction frames generalizing queue with
  | nil => rw [List.foldl_nil, List.append_nil]
  | cons frame rest ih =>
      have hinsert := (insert_perm frame queue).append_right rest
      exact (ih (insert frame queue)).trans (hinsert.trans List.perm_middle.symm)

variable {engine next : TailByteEngine} {heap heap' : Heap}

theorem queue_acceptTailed {frame : Assembly} {tail : Tail} {extent : Nat}
    {outcome : AcceptOutcome}
    (h : engine.acceptTailed frame tail extent heap = .ok (outcome, next, heap')) :
    next.queue = engine.queue := by
  unfold acceptTailed at h
  split at h
  · split at h
    · obtain ⟨⟨made, heap⟩, -, h⟩ := Fault.bind_eq_ok h
      cases h
      rfl
    · cases h
      rfl
  split at h
  · cases h
    rfl
  split at h
  · split at h
    · obtain ⟨⟨made, heap⟩, -, h⟩ := Fault.bind_eq_ok h
      cases h
      rfl
    · cases h
      rfl
  · cases h
    rfl

theorem queue_accept {frame : ReceivedFrame} {outcome : AcceptOutcome}
    (h : engine.accept frame heap = .ok (outcome, next, heap')) : next.queue = engine.queue := by
  unfold accept at h
  split at h
  · split at h
    · exact queue_acceptTailed h
    · cases h
      rfl
  · cases h
    rfl

theorem queue_subscribe (engine : TailByteEngine) (topic : Topic) (extent : Nat) :
    (engine.subscribe topic extent).2.queue = engine.queue := by
  unfold subscribe
  split
  · rfl
  · split <;> rfl

theorem length_split (width : Nat) (transferId : TransferId) (data : Bytes) :
    (split width transferId data).length = frameCount width data.length := by
  simp [split]

theorem length_storeAll {stored blocks : List Block} {fields : List Bytes}
    (h : storeAll heap stored fields = .ok (some blocks, heap')) :
    blocks.length = stored.length + fields.length := by
  induction fields generalizing heap stored with
  | nil =>
      cases h
      rfl
  | cons data rest ih =>
      obtain ⟨⟨_ | block, heap⟩, -, h⟩ := Fault.bind_eq_ok h
      · obtain ⟨heap, -, h⟩ := Fault.bind_eq_ok h
        cases h
      · have hlength := ih h
        simp only [List.length_append, List.length_cons, List.length_nil] at hlength ⊢
        omega

/-- What a push does: it gives up before it stores anything, gives up for lack of memory, or
queues a frame for every block. -/
theorem push_cases {deadline : Micros} {metadata : Metadata} {payload : Bytes}
    {answer : Except EngineError Nat}
    (h : engine.push deadline metadata payload heap = .ok (answer, next, heap')) :
    ((∃ error, answer = .error error) ∧ next = engine ∧ heap' = heap) ∨
      ∃ fields : List Bytes,
        (answer = .error .outOfMemory ∧ next = engine ∧
          storeAll heap [] fields = .ok (none, heap')) ∨
        ∃ (id : Identifier) (blocks : List Block), answer = .ok blocks.length ∧
          storeAll heap [] fields = .ok (some blocks, heap') ∧
          next = { engine with
            queue := (blocks.map fun block => (⟨deadline, id, block⟩ : QueuedFrame)).foldl
              (fun queue frame => insert frame queue) engine.queue } := by
  unfold push at h
  split at h
  · cases h
    exact .inl ⟨⟨_, rfl⟩, rfl, rfl⟩
  next id _ =>
  simp only at h
  split at h
  · cases h
    exact .inl ⟨⟨_, rfl⟩, rfl, rfl⟩
  split at h
  · cases h
    exact .inl ⟨⟨_, rfl⟩, rfl, rfl⟩
  obtain ⟨⟨_ | blocks, heap⟩, hstore, h⟩ := Fault.bind_eq_ok h
  · cases h
    exact .inr ⟨_, .inl ⟨rfl, rfl, hstore⟩⟩
  · cases h
    have hlength := length_storeAll hstore
    rw [length_split, List.length_nil, Nat.zero_add] at hlength
    exact .inr ⟨_, .inr ⟨id, blocks, by rw [hlength], hstore, rfl⟩⟩

theorem queues : Engine.Queues TailByteEngine.queue where
  peek _ := rfl
  pop _ := rfl
  rest _ := rfl
  pending _ := rfl

theorem conserves : Engine.Conserves TailByteEngine.queue where
  toQueues := queues
  configure _ _ := rfl
  accept := queue_accept
  subscribe topic params engine := queue_subscribe engine topic params.extent
  unsubscribe h := by
    cases h
    rfl
  push h := by
    obtain ⟨⟨error, herror⟩, -⟩ | ⟨fields, ⟨herror, -⟩ | ⟨id, blocks, hcount, -, rfl⟩⟩ :=
      push_cases h
    · cases herror
    · cases herror
    · cases hcount
      exact ⟨_, List.length_map _, foldl_insert_perm _ _⟩
  refuse h := by
    obtain ⟨-, rfl, -⟩ | ⟨fields, ⟨-, rfl, -⟩ | ⟨id, blocks, hcount, -⟩⟩ := push_cases h
    · rfl
    · rfl
    · cases hcount

end TailByteEngine

end CanNode
