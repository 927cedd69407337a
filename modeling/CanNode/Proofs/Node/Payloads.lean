import CanNode.Proofs.Heap.Contents
import CanNode.Proofs.Node.Balance

/-!
# Payloads arrive as they were written

The data of a frame may wait in its block for many calls, while the engine, the node and the heap
work around it.  `Node.Carries` reads a history as what becomes of the contents of blocks if every
block is an array of its own, so that a frame keeps the data that were written for it and shows them
to every transmitter that it is offered to.  `Node.payloads_intact` says that all histories can be
read so when the engine works on blocks of its own only.
-/

namespace CanNode

/-- A frame that waits for transmission, and the data that were written for it. -/
structure LoadedFrame where
  frame : QueuedFrame
  data : Bytes

namespace LoadedFrame

def entry (loaded : LoadedFrame) : Ledger.Entry :=
  ⟨loaded.frame.payload, loaded.data⟩

/-- The frame as transmitters should see it. -/
def outgoing (loaded : LoadedFrame) : OutgoingFrame :=
  ⟨loaded.frame.id, loaded.data, loaded.frame.deadline⟩

theorem exists_loaded {entries : List Ledger.Entry} {frames : List QueuedFrame}
    (h : entries.map Ledger.Entry.block = payloads frames) :
    ∃ loaded : List LoadedFrame, loaded.map frame = frames ∧ loaded.map entry = entries := by
  induction frames generalizing entries with
  | nil => exact ⟨[], rfl, (List.map_eq_nil_iff.mp h).symm⟩
  | cons first rest ih =>
      obtain ⟨⟨block, bytes⟩, others, rfl, hblock, hothers⟩ := List.map_eq_cons_iff.mp h
      obtain ⟨loaded, rfl, rfl⟩ := ih hothers
      refine ⟨⟨first, bytes⟩ :: loaded, rfl, ?_⟩
      rw [List.map_cons, entry, ← hblock]

end LoadedFrame

namespace Node

open Ledger

variable {σ κ ρ α τ : Type}

/-- A heap, and who has which blocks in it. -/
structure Custody where
  heap : Heap
  own : List Entry
  loaded : List LoadedFrame
  passed : Option Entry

def Event.Aside : Event ρ → Prop
  | .engine (.subscribe _ _ _) _ => True
  | .engine (.pop none) _ => True
  | .clock _ => True
  | .subscribed _ _ _ => True
  | .unsubscribed _ _ => True
  | _ => False

/-- A history is read as what becomes of the contents of blocks. -/
inductive Carries : Custody → List (Event ρ) → Custody → Prop where
  | nil {custody} : Carries custody [] custody
  | aside {custody event history last} (haside : event.Aside)
      (hrest : Carries custody history last) : Carries custody (event :: history) last
  | accepted {heap own loaded frame outcome heap' own' passed history last}
      (huses : Uses ⟨heap, own⟩ ⟨heap', passed.toList ++ own'⟩)
      (hblock : passed.map Entry.block = outcome.block?)
      (hrest : Carries ⟨heap', own', loaded, passed⟩ history last) :
      Carries ⟨heap, own, loaded, none⟩ (.engine (.accept frame outcome) heap' :: history) last
  | unsubscribed {heap own loaded topic closed heap' own' history last}
      (huses : Uses ⟨heap, own⟩ ⟨heap', own'⟩)
      (hrest : Carries ⟨heap', own', loaded, none⟩ history last) :
      Carries ⟨heap, own, loaded, none⟩ (.engine (.unsubscribe topic closed) heap' :: history) last
  | pushed {heap own loaded deadline metadata payload answer heap' own' inserted history last}
      (huses : Uses ⟨heap, own⟩ ⟨heap', inserted.map LoadedFrame.entry ++ own'⟩)
      (hrest : Carries ⟨heap', own', loaded ++ inserted, none⟩ history last) :
      Carries ⟨heap, own, loaded, none⟩
        (.engine (.push deadline metadata payload answer) heap' :: history) last
  | offered {heap own loaded head accepted history last} (hhead : head ∈ loaded)
      (hrest : Carries ⟨heap, own, loaded, none⟩ history last) :
      Carries ⟨heap, own, loaded, none⟩ (.offered head.outgoing accepted :: history) last
  | popped {heap own loaded head rest history last} (hhead : loaded.Perm (head :: rest))
      (hrest : Carries ⟨heap, own, rest, some head.entry⟩ history last) :
      Carries ⟨heap, own, loaded, none⟩ (.engine (.pop (some head.frame)) heap :: history) last
  | delivered {heap own loaded passed receiver transfer history last}
      (hblock : passed.map Entry.block = transfer.payload)
      (hpayload : Delivery.payload ⟨heap, transfer⟩ = .ok ((passed.map Entry.bytes).getD []))
      (hrest : Carries ⟨heap, own, loaded, passed⟩ history last) :
      Carries ⟨heap, own, loaded, passed⟩ (.delivered receiver ⟨heap, transfer⟩ :: history) last
  | freed {heap own loaded entry heap' history last}
      (hfree : heap.free entry.block = .ok heap')
      (hrest : Carries ⟨heap', own, loaded, none⟩ history last) :
      Carries ⟨heap, own, loaded, some entry⟩ (.freed entry.block :: history) last

theorem Carries.append {custody middle last : Custody} {events history : List (Event ρ)}
    (hfirst : Carries custody events middle) (hrest : Carries middle history last) :
    Carries custody (events ++ history) last := by
  induction hfirst with
  | nil => exact hrest
  | aside haside _ ih => exact .aside haside (ih hrest)
  | accepted huses hblock _ ih => exact .accepted huses hblock (ih hrest)
  | unsubscribed huses _ ih => exact .unsubscribed huses (ih hrest)
  | pushed huses _ ih => exact .pushed huses (ih hrest)
  | offered hhead _ ih => exact .offered hhead (ih hrest)
  | popped hhead _ ih => exact .popped hhead (ih hrest)
  | delivered hblock hpayload _ ih => exact .delivered hblock hpayload (ih hrest)
  | freed hfree _ ih => exact .freed hfree (ih hrest)

/-! ## What is stored between calls -/

/-- What the engine works on and what waits is in the heap. -/
structure Stored (arena : Arena) (waiting : σ → List QueuedFrame) (own : σ → List Block)
    (heap : Heap) (engine : σ) (entries : List Entry) (loaded : List LoadedFrame) : Prop where
  frames : (loaded.map LoadedFrame.frame).Perm (waiting engine)
  blocks : (entries.map Entry.block).Perm (own engine)
  intact : Intact arena ⟨heap, entries ++ loaded.map LoadedFrame.entry⟩

namespace Stored

variable {arena : Arena} {waiting : σ → List QueuedFrame} {own : σ → List Block}
  {heap heap' : Heap} {engine next : σ} {entries : List Entry} {loaded : List LoadedFrame}
  (h : Stored arena waiting own heap engine entries loaded)

include h

theorem holds : Holds arena ⟨heap, own engine ++ payloads (waiting engine)⟩ := by
  have hblocks := h.intact.holds
  rw [List.map_append, List.map_map] at hblocks
  have hpayloads := h.frames.map QueuedFrame.payload
  rw [List.map_map] at hpayloads
  exact hblocks.leads (.of_perm (h.blocks.append hpayloads))

/-- Whatever the engine does with its own blocks, the data of waiting frames stay. -/
theorem exists_uses {blocks kept : List Block}
    (hleads : Leads ⟨heap, own engine⟩ ⟨heap', blocks ++ kept⟩) :
    ∃ made entries', Uses ⟨heap, entries⟩ ⟨heap', made ++ entries'⟩ ∧
      made.map Entry.block = blocks ∧ entries'.map Entry.block = kept ∧
      Intact arena ⟨heap', made ++ (entries' ++ loaded.map LoadedFrame.entry)⟩ := by
  obtain ⟨mine, huses, hblocks⟩ := exists_uses_of_leads hleads h.intact h.blocks
  obtain ⟨made, entries', rfl, hmade, hkept⟩ := List.map_eq_append_iff.mp hblocks
  refine ⟨made, entries', huses, hmade, hkept, ?_⟩
  rw [← List.append_assoc]
  exact h.intact.uses huses

variable [Engine σ] (hcareful : Engine.Careful waiting own)

include hcareful

theorem exists_head {head : QueuedFrame} {data : Bytes} (hpeek : Engine.peek engine = some head)
    (hread : heap.read head.payload = .ok data) :
    ∃ frame ∈ loaded, frame.frame = head ∧ frame.outgoing = ⟨head.id, data, head.deadline⟩ := by
  have hwaiting := h.frames.mem_iff.mpr (hcareful.peek hpeek)
  obtain ⟨frame, hframe, rfl⟩ := List.mem_map.mp hwaiting
  have hentry := h.intact.reads frame.entry
    (List.mem_append_right entries (List.mem_map_of_mem hframe))
  obtain rfl : frame.data = data := Except.ok.inj (hentry.symm.trans hread)
  exact ⟨frame, hframe, rfl, rfl⟩

theorem offered {head : QueuedFrame} {data : Bytes} {accepted : Bool} {history : List (Event ρ)}
    {last : Custody} (hpeek : Engine.peek engine = some head)
    (hread : heap.read head.payload = .ok data)
    (hrest : Carries ⟨heap, entries, loaded, none⟩ history last) :
    Carries ⟨heap, entries, loaded, none⟩
      (.offered ⟨head.id, data, head.deadline⟩ accepted :: history) last := by
  obtain ⟨frame, hframe, -, hout⟩ := h.exists_head hcareful hpeek hread
  rw [← hout]
  exact .offered hframe hrest

theorem retire {frame : QueuedFrame} (hpop : Engine.pop engine = (some frame, next))
    (hfree : heap.free frame.payload = .ok heap') :
    ∃ head rest, loaded.Perm (head :: rest) ∧ head.frame = frame ∧
      Stored arena waiting own heap' next entries rest := by
  obtain ⟨hwaiting, hown⟩ := hcareful.pop hpop
  -- the popped frame may be any of those that wait, so they are reordered first
  obtain ⟨ordered, hordered, hframes⟩ := exists_map_eq_of_perm (h.frames.trans hwaiting)
  obtain ⟨head, rest, rfl, rfl, hrest⟩ := List.map_eq_cons_iff.mp hframes
  have hentries := (hordered.map LoadedFrame.entry).append_left entries
  have hintact := h.intact.perm (hentries.trans List.perm_middle)
  exact ⟨head, rest, hordered, rfl, .of_eq hrest, h.blocks.trans hown.symm, hintact.free hfree⟩

theorem keep (hpop : Engine.pop engine = (none, next)) :
    Stored arena waiting own heap next entries loaded := by
  obtain ⟨hwaiting, hown⟩ := hcareful.pop hpop
  exact ⟨h.frames.trans hwaiting, h.blocks.trans hown.symm, h.intact⟩

theorem accept {frame : ReceivedFrame} {outcome : AcceptOutcome}
    (haccept : Engine.accept frame engine heap = .ok (outcome, next, heap')) :
    ∃ (passed : Option Entry) (entries' : List Entry),
      Uses ⟨heap, entries⟩ ⟨heap', passed.toList ++ entries'⟩ ∧
      passed.map Entry.block = outcome.block? ∧
      Intact arena ⟨heap', passed.toList ++ (entries' ++ loaded.map LoadedFrame.entry)⟩ ∧
      ∀ released, Intact arena ⟨released, entries' ++ loaded.map LoadedFrame.entry⟩ →
        Stored arena waiting own released next entries' loaded := by
  obtain ⟨hwaiting, hleads⟩ := hcareful.accept h.holds haccept
  obtain ⟨made, entries', huses, hmade, hkept, hintact⟩ := h.exists_uses hleads
  obtain ⟨passed, rfl, hpassed⟩ := exists_option_of_map hmade
  refine ⟨passed, entries', huses, hpassed, hintact, fun released hreleased => ?_⟩
  exact ⟨h.frames.trans hwaiting.symm, .of_eq hkept, hreleased⟩

theorem subscribe {topic : Topic} {params : SessionParams} {answer : Except EngineError Unit}
    (hsubscribe : Engine.subscribe topic params engine = (answer, next)) :
    Stored arena waiting own heap next entries loaded := by
  obtain ⟨hwaiting, hown⟩ := hcareful.subscribe topic params engine
  rw [hsubscribe] at hwaiting hown
  exact ⟨h.frames.trans hwaiting.symm, h.blocks.trans hown.symm, h.intact⟩

theorem unsubscribe {topic : Topic} {closed : Bool}
    (hunsubscribe : Engine.unsubscribe topic engine heap = .ok (closed, next, heap')) :
    ∃ entries', Uses ⟨heap, entries⟩ ⟨heap', entries'⟩ ∧
      Stored arena waiting own heap' next entries' loaded := by
  obtain ⟨hwaiting, hleads⟩ := hcareful.unsubscribe h.holds hunsubscribe
  obtain ⟨entries', huses, hkept⟩ := exists_uses_of_leads hleads h.intact h.blocks
  exact ⟨entries', huses, h.frames.trans hwaiting.symm, .of_eq hkept, h.intact.uses huses⟩

theorem push {deadline : Micros} {metadata : Metadata} {payload : Bytes}
    {answer : Except EngineError Nat}
    (hpush : Engine.push deadline metadata payload engine heap = .ok (answer, next, heap')) :
    ∃ inserted entries',
      Uses ⟨heap, entries⟩ ⟨heap', inserted.map LoadedFrame.entry ++ entries'⟩ ∧
      Stored arena waiting own heap' next entries' (loaded ++ inserted) := by
  obtain ⟨frames, hwaiting, hleads⟩ := hcareful.push h.holds hpush
  obtain ⟨made, entries', huses, hmade, hkept, hintact⟩ := h.exists_uses hleads
  obtain ⟨inserted, rfl, rfl⟩ := LoadedFrame.exists_loaded hmade
  refine ⟨inserted, entries', huses, ?_, .of_eq hkept, hintact.perm ?_⟩
  · rw [List.map_append]
    exact (h.frames.append_right _).trans hwaiting.symm
  · rw [List.map_append]
    exact List.perm_append_comm.trans (.of_eq (List.append_assoc ..))

end Stored

/-! ## What has passed to the node -/

section Passed

variable {arena : Arena} {heap heap' : Heap} {transfer : Transfer} {passed : Option Entry}
  {entries own : List Entry} {loaded : List LoadedFrame}
  (h : Intact arena ⟨heap, passed.toList ++ entries⟩)
  (hblock : passed.map Entry.block = transfer.payload)

include h hblock

theorem payload_eq :
    Delivery.payload ⟨heap, transfer⟩ = .ok ((passed.map Entry.bytes).getD []) := by
  unfold Delivery.payload
  rw [← hblock]
  cases passed with
  | none => rfl
  | some entry => exact h.reads entry List.mem_cons_self

theorem carries_release (hrelease : Delivery.release ⟨heap, transfer⟩ = .ok heap') :
    Carries (ρ := ρ) ⟨heap, own, loaded, passed⟩ (transfer.payload.toList.map .freed)
      ⟨heap', own, loaded, none⟩ ∧ Intact arena ⟨heap', entries⟩ := by
  unfold Delivery.release at hrelease
  rw [← hblock] at hrelease ⊢
  cases passed with
  | none =>
      cases hrelease
      exact ⟨.nil, h⟩
  | some entry => exact ⟨.freed hrelease .nil, h.free hrelease⟩

end Passed

/-! ## Steps and runs -/

section Steps

variable [Engine σ] {arena : Arena} {waiting : σ → List QueuedFrame} {own : σ → List Block}
  {node next last : Node σ κ ρ α} {events history : List (Event ρ)} {entries : List Entry}
  {loaded : List LoadedFrame}

/-- A history leads to what is stored for a node between calls. -/
def Keeps (arena : Arena) (waiting : σ → List QueuedFrame) (own : σ → List Block)
    (before : Custody) (history : List (Event ρ)) (node : Node σ κ ρ α) : Prop :=
  ∃ entries loaded, Carries before history ⟨node.heap, entries, loaded, none⟩ ∧
    Stored arena waiting own node.heap node.engine entries loaded

/-- Whatever is offered next is the head of the engine, with the data that are known for it. -/
def Offers (τ : Type) [Clock κ] [Transmitter τ] (node : Node σ κ ρ α)
    (loaded : List LoadedFrame) : Prop :=
  ∀ {transmitter final : τ} {events again next frame accepted},
    node.Looks transmitter events again next final → .offered frame accepted ∈ events →
      ∃ head ∈ loaded, Engine.peek node.engine = some head.frame ∧ head.outgoing = frame

variable (hcareful : Engine.Careful waiting own)
  (hstored : Stored arena waiting own node.heap node.engine entries loaded)

include hcareful hstored

theorem Processes.keeps [Receiver ρ (Shared α)] {frame : ReceivedFrame}
    (h : node.Processes frame events next) :
    Keeps arena waiting own ⟨node.heap, entries, loaded, none⟩ events next := by
  cases h with
  | rejected haccept | fragment haccept | outOfMemory haccept =>
      obtain ⟨passed, entries', huses, hblock, hintact, hnext⟩ := hstored.accept hcareful haccept
      obtain rfl := Option.map_eq_none_iff.mp hblock
      exact ⟨entries', loaded, .accepted huses hblock .nil, hnext _ hintact⟩
  | unhandled haccept _ hrelease =>
      obtain ⟨passed, entries', huses, hblock, hintact, hnext⟩ := hstored.accept hcareful haccept
      obtain ⟨hcarries, hreleased⟩ := carries_release hintact hblock hrelease
      exact ⟨entries', loaded, .accepted huses hblock hcarries, hnext _ hreleased⟩
  | delivered haccept _ _ hrelease =>
      obtain ⟨passed, entries', huses, hblock, hintact, hnext⟩ := hstored.accept hcareful haccept
      obtain ⟨hcarries, hreleased⟩ := carries_release hintact hblock hrelease
      have hpayload := payload_eq hintact hblock
      exact ⟨entries', loaded, .accepted huses hblock (.delivered hblock hpayload hcarries),
        hnext _ hreleased⟩

theorem Looks.keeps [Clock κ] [Transmitter τ] {transmitter final : τ} {again : Bool}
    (h : node.Looks transmitter events again next final) :
    Keeps arena waiting own ⟨node.heap, entries, loaded, none⟩ events next := by
  cases h with
  | empty => exact ⟨entries, loaded, .aside trivial .nil, hstored⟩
  | refused _ hpeek _ hread =>
      exact ⟨entries, loaded, .aside trivial (hstored.offered hcareful hpeek hread .nil), hstored⟩
  | expired _ _ _ hpop hfree =>
      obtain ⟨head, rest, hhead, rfl, hnext⟩ := hstored.retire hcareful hpop hfree
      exact ⟨entries, rest, .aside trivial (.popped hhead (.freed hfree .nil)), hnext⟩
  | expiredKept _ _ _ hpop =>
      exact ⟨entries, loaded, .aside trivial (.aside trivial .nil), hstored.keep hcareful hpop⟩
  | sent _ hpeek _ hread _ hpop hfree =>
      obtain ⟨head, rest, hhead, rfl, hnext⟩ := hstored.retire hcareful hpop hfree
      refine ⟨entries, rest, .aside trivial (hstored.offered hcareful hpeek hread ?_), hnext⟩
      exact .popped hhead (.freed hfree .nil)
  | sentKept _ hpeek _ hread _ hpop =>
      refine ⟨entries, loaded, .aside trivial (hstored.offered hcareful hpeek hread ?_),
        hstored.keep hcareful hpop⟩
      exact .aside trivial .nil

theorem Handles.keeps [Clock κ] {call : Call ρ τ} (h : node.Handles call events next) :
    Keeps arena waiting own ⟨node.heap, entries, loaded, none⟩ events next := by
  cases h with
  | arrived => exact ⟨entries, loaded, .nil, hstored⟩
  | invalidPort | registryFull | unknown | received | clockRead =>
      exact ⟨entries, loaded, .aside trivial .nil, hstored⟩
  | sessionRefused _ _ hsession | subscribed _ hsession =>
      exact ⟨entries, loaded, .aside trivial (.aside trivial .nil),
        hstored.subscribe hcareful hsession⟩
  | unsubscribed _ hsession =>
      obtain ⟨entries', huses, hnext⟩ := hstored.unsubscribe hcareful hsession
      exact ⟨entries', loaded, .unsubscribed huses (.aside trivial .nil), hnext⟩
  | enqueued _ hpush | notEnqueued _ hpush =>
      obtain ⟨inserted, entries', huses, hnext⟩ := hstored.push hcareful hpush
      exact ⟨entries', _, .aside trivial (.pushed huses .nil), hnext⟩

theorem Step.keeps [Clock κ] [Receiver ρ (Shared α)] [Transmitter τ]
    (h : node.Step τ events next) :
    Keeps arena waiting own ⟨node.heap, entries, loaded, none⟩ events next := by
  cases h with
  | @process frame arrived events next _ hprocess =>
      have harrived : Stored arena waiting own (node.withQueue arrived).heap
        (node.withQueue arrived).engine entries loaded := hstored
      exact (hprocess.keeps hcareful harrived :)
  | look hlook => exact hlook.keeps hcareful hstored
  | handle hhandle => exact hhandle.keeps hcareful hstored

theorem Steps.keeps [Clock κ] [Receiver ρ (Shared α)] [Transmitter τ]
    (h : node.Steps τ history last) :
    Keeps arena waiting own ⟨node.heap, entries, loaded, none⟩ history last := by
  refine h.invariant (P := Keeps arena waiting own ⟨node.heap, entries, loaded, none⟩) ?_
    ⟨entries, loaded, .nil, hstored⟩
  rintro past middle events next ⟨entries', loaded', hpast, hmiddle⟩ hstep
  obtain ⟨entries'', loaded'', hevents, hnext⟩ := hstep.keeps hcareful hmiddle
  exact ⟨entries'', loaded'', hpast.append hevents, hnext⟩

theorem Stored.offers [Clock κ] [Transmitter τ] : node.Offers τ loaded := by
  intro transmitter final events again next frame accepted hlook hoffered
  cases hlook with
  | empty | expired | expiredKept => simp at hoffered
  | refused _ hpeek _ hread | sent _ hpeek _ hread | sentKept _ hpeek _ hread =>
      obtain ⟨head, hhead, rfl, hout⟩ := hstored.exists_head hcareful hpeek hread
      simp only [← hout, List.mem_cons, List.not_mem_nil, Event.offered.injEq, reduceCtorEq,
        or_false, false_or] at hoffered
      exact ⟨head, hhead, hpeek, hoffered.1.symm⟩

/-- The heap raises no fault over what is stored in it. -/
theorem Stored.not_misuses {fault : Fault} : ¬ node.Misuses fault := by
  have hwaiting {frame : QueuedFrame} (hframe : frame ∈ waiting node.engine) :
      frame.payload ∈ own node.engine ++ payloads (waiting node.engine) :=
    List.mem_append_right _ (List.mem_map_of_mem hframe)
  refine not_misuses_of_holds hstored.holds (fun hpeek => hwaiting (hcareful.peek hpeek))
    (fun hpop => hwaiting ((hcareful.pop hpop).1.mem_iff.mpr List.mem_cons_self))
    fun {_ transfer _ _} haccept => ?_
  obtain ⟨passed, entries', -, hblock, hintact, -⟩ := hstored.accept hcareful haccept
  have hpassed : passed.toList.map Entry.block = transfer.payload.toList := by
    rw [← Option.toList_map, hblock, AcceptOutcome.block?]
  have hblocks := hintact.holds
  rw [List.map_append, hpassed] at hblocks
  exact ⟨_, hblocks⟩

end Steps

/-- Tail-byte engines work on no payload of a waiting frame.  With any engine that works on blocks
of its own only, every history of a node carries the payloads: a receiver reads what the engine
stored for the transfer, and a transmitter sees what the engine wrote for the frame, however often
and whenever the frame is offered.  The heap raises no fault over a payload. -/
theorem payloads_intact :
    Engine.Careful TailByteEngine.queue (fun _ => []) ∧
    ∀ {σ κ ρ α τ : Type} [Engine σ] [Clock κ] [Receiver ρ (Shared α)] [Transmitter τ]
      {waiting : σ → List QueuedFrame} {own : σ → List Block} {engine : σ} {arena : Arena}
      {clock : κ} {shared : Shared α} {config : NodeConfig} {capacity : Nat} {node : Node σ κ ρ α},
      Engine.Careful waiting own → waiting engine = [] → own engine = [] →
      start engine arena clock shared config capacity = .ok node →
      (∀ last history, node.Steps τ history last →
        ∃ entries loaded,
          Carries ⟨node.heap, [], [], none⟩ history ⟨last.heap, entries, loaded, none⟩ ∧
          Stored arena waiting own last.heap last.engine entries loaded ∧
          last.Offers τ loaded ∧ ∀ fault, ¬ last.Misuses fault) ∧
      ∀ calls : List (Call ρ τ),
        (∀ last history, node.Runs calls history last → node.Steps τ history last) ∧
        node.Adequate calls ∧
        ∀ queue : σ → List QueuedFrame, Engine.Queues queue →
          ∀ fault, node.run calls = .error fault →
            ∃ history last, node.Steps τ history last ∧ last.Raises fault := by
  refine ⟨TailByteEngine.careful, ?_⟩
  intro σ κ ρ α τ _ _ _ _ waiting own engine arena clock shared config capacity node hcareful
    hempty hnone hstart
  obtain ⟨heap, hformat, rfl⟩ := start_eq_ok hstart
  obtain ⟨hwaiting, hown⟩ := hcareful.configure config engine
  rw [hempty] at hwaiting
  rw [hnone] at hown
  have hstored : Stored arena waiting own heap (Engine.configure config engine) [] [] :=
    ⟨hwaiting.symm, hown.symm, .of_format hformat⟩
  refine ⟨fun last history hsteps => ?_, fun calls => ⟨fun last history hruns => hruns.steps,
    adequate _ calls, fun queue hqueues fault hfault => ?_⟩⟩
  · obtain ⟨entries, loaded, hcarries, hlast⟩ := hsteps.keeps hcareful hstored
    exact ⟨entries, loaded, hcarries, hlast, hlast.offers hcareful,
      fun fault => hlast.not_misuses hcareful⟩
  · obtain ⟨history, last, hsteps, hraises | hmisuses⟩ := exists_stuck_of_run hqueues hfault
    · exact ⟨history, last, hsteps, hraises⟩
    · obtain ⟨entries, loaded, -, hlast⟩ := hsteps.keeps hcareful hstored
      exact absurd hmisuses (hlast.not_misuses hcareful)

def sampleTraffic : List (Call Recorder ScriptedTransmitter) :=
  let metadata := Metadata.message (.ofNat 100) default
  [.subscribe (.message (.ofNat 100)) { extent := 16 } ⟨1⟩, .enqueue 1000 metadata [1, 2, 3],
    .spin ⟨[]⟩, .arrive (.raw 0x10606407 [4, 5, 6, 0xE0] 5),
    .enqueue 1000 metadata [1, 2, 3, 4, 5, 6, 7, 8], .spin ⟨[]⟩,
    .unsubscribe (.message (.ofNat 100)), .spin ⟨[true, true]⟩]

/-- The receiver reads what was received, and of three frames one waits with its data. -/
theorem payloads_intact_sample :
    Engine.Careful TailByteEngine.queue (fun _ => []) ∧ ({} : TailByteEngine).queue = [] ∧
      ∃ node last history entries loaded, ScriptedNode.start [] = .ok node ∧
        node.Runs sampleTraffic history last ∧
        Carries ⟨node.heap, [], [], none⟩ history ⟨last.heap, entries, loaded, none⟩ ∧
        loaded.length = 1 ∧ last.shared.app = [(1, [4, 5, 6])] ∧ last.stats.sent = 2 := by
  obtain ⟨node, last, hstart, hrun, hlast⟩ := ScriptedNode.exists_run_of_rehearse
    (p := fun last => decide (last.engine.queue.length = 1 ∧
      last.shared.app = [(1, [4, 5, 6])] ∧ last.stats.sent = 2))
    (show (ScriptedNode.rehearse [] sampleTraffic).any _ = true by decide +kernel)
  obtain ⟨hlength, happ, hsent⟩ := of_decide_eq_true hlast
  obtain ⟨hcareful, hintact⟩ := payloads_intact
  obtain ⟨hkeeps, hruns⟩ := hintact (τ := ScriptedTransmitter) hcareful rfl rfl hstart
  obtain ⟨hsteps, hadequate, -⟩ := hruns sampleTraffic
  obtain ⟨history, hhistory⟩ := hadequate.sound last hrun
  obtain ⟨entries, loaded, hcarries, hstored, -⟩ :=
    hkeeps last history (hsteps last history hhistory)
  have hloaded := hstored.frames.length_eq
  rw [List.length_map, hlength] at hloaded
  exact ⟨hcareful, rfl, node, last, history, entries, loaded, hstart, hhistory, hcarries, hloaded,
    happ, hsent⟩

end Node

end CanNode
