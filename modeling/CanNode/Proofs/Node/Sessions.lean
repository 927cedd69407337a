import CanNode.Proofs.Node.Computation
import CanNode.Proofs.Node.Script
import CanNode.Proofs.Registry.Subscription
import Mathlib.Data.Set.Insert

/-!
# Subscriptions and sessions in step

The node registers a topic when the engine has opened its session and closes the session of a
topic that it removes.  `Node.sessions_in_step` says that after every run the registered topics are
those whose session the engine has opened and not been told to close.
-/

namespace CanNode

/-- The engine opens the session of a topic when it says so, and closes it when it is told to. -/
structure Engine.Keeps {σ : Type} [Engine σ] (sessions : σ → Set Topic) : Prop where
  opened : ∀ {topic params engine next}, Engine.subscribe topic params engine = (.ok (), next) →
    sessions next = sessions engine ∪ {topic}
  refused : ∀ {topic params engine error next},
    Engine.subscribe topic params engine = (.error error, next) → sessions next = sessions engine
  closed : ∀ {topic engine heap answer next heap'},
    Engine.unsubscribe topic engine heap = .ok (answer, next, heap') →
      sessions next = sessions engine \ {topic}

namespace TailByteEngine

def openTopics (engine : TailByteEngine) : Set Topic :=
  {topic | topic ∈ engine.sessions.map OpenSession.topic}

theorem openTopics_subscribe {engine next : TailByteEngine} {topic : Topic} {extent : Nat}
    (h : engine.subscribe topic extent = (.ok (), next)) :
    next.openTopics = engine.openTopics ∪ {topic} := by
  unfold subscribe at h
  split at h
  · next hopen =>
      cases h
      have hmem : topic ∈ engine.openTopics := by simpa [openTopics] using hopen
      have htopics : ∀ session : OpenSession,
          (if session.topic == topic then { session with extent } else session).topic =
            session.topic := by
        intro session
        split <;> rfl
      rw [Set.union_eq_self_of_subset_right (Set.singleton_subset_iff.mpr hmem)]
      simp only [openTopics, List.map_map, Function.comp_def, htopics]
  · split at h
    · cases h
      ext other
      simp [openTopics, or_comm]
    · cases h

theorem keeps : Engine.Keeps openTopics where
  opened := openTopics_subscribe
  refused {topic params engine error next} h := by
    have h : engine.subscribe topic params.extent = (.error error, next) := h
    unfold subscribe at h
    split at h
    · cases h
    · split at h
      · cases h
      · cases h
        rfl
  closed h := by
    cases h
    ext other
    constructor
    · intro hother
      obtain ⟨session, hmem, rfl⟩ := List.mem_map.mp hother
      obtain ⟨hmem, hkept⟩ := List.mem_filter.mp hmem
      exact ⟨List.mem_map_of_mem hmem, by simpa using hkept⟩
    · rintro ⟨hother, hkept⟩
      obtain ⟨session, hmem, rfl⟩ := List.mem_map.mp hother
      exact List.mem_map_of_mem (List.mem_filter.mpr ⟨hmem, by simpa using hkept⟩)

end TailByteEngine

namespace Node

variable {σ κ ρ α τ : Type}

/-- What an event means for the session of a topic: it is open from now on, or closed, or it
stays as it is. -/
def Event.session? (topic : Topic) : Event ρ → Option Bool
  | .engine (.subscribe other _ (.ok ())) _ => if other = topic then some true else none
  | .engine (.unsubscribe other _) _ => if other = topic then some false else none
  | _ => none

def Event.closes (topic : Topic) (event : Event ρ) : Bool :=
  event.session? topic == some false

def Call.IsSubscription : Call ρ τ → Prop
  | .subscribe _ _ _ => True
  | .unsubscribe _ => True
  | _ => False

/-- The engine has opened the session of a topic and has not been told to close it since. -/
def Opened (history : List (Event ρ)) (topic : Topic) : Prop :=
  ∃ before params heap after,
    history = before ++ .engine (.subscribe topic params (.ok ())) heap :: after ∧
      ∀ event ∈ after, event.closes topic = false

section Opened

variable {history : List (Event ρ)} {event : Event ρ} {topic : Topic}

theorem Event.session?_eq_true (h : event.session? topic = some true) :
    ∃ params heap, event = .engine (.subscribe topic params (.ok ())) heap := by
  unfold Event.session? at h
  split at h
  · next other params heap =>
      by_cases hother : other = topic
      · exact ⟨params, heap, by rw [hother]⟩
      · simp [hother] at h
  · next other closed heap => by_cases hother : other = topic <;> simp [hother] at h
  · cases h

theorem opened_iff_latest :
    Opened history topic ↔ latest (Event.session? topic) history = some true := by
  constructor
  · rintro ⟨before, params, heap, after, rfl, hopen⟩
    rw [List.append_cons, latest_append, latest_concat]
    cases hlatest : latest (Event.session? topic) after with
    | none => simp [Event.session?]
    | some stays =>
        obtain ⟨earlier, event, later, rfl, hevent, -⟩ := latest_eq_some_iff.mp hlatest
        have hstays := hopen event (by simp)
        cases stays with
        | true => rfl
        | false => simp [Event.closes, hevent] at hstays
  · intro h
    obtain ⟨before, event, after, rfl, hevent, hsilent⟩ := latest_eq_some_iff.mp h
    obtain ⟨params, heap, rfl⟩ := Event.session?_eq_true hevent
    exact ⟨before, params, heap, after, rfl, fun later hlater => by
      simp [Event.closes, hsilent later hlater]⟩

end Opened

/-- After a history the registered topics are those with an open session, each valid and listed
once. -/
structure InStep (history : List (Event ρ)) (node : Node σ κ ρ α) : Prop where
  opened : ∀ topic, node.isSubscribed topic = true ↔ Opened history topic
  valid : ∀ topic, node.isSubscribed topic = true → topic.port.fits topic.kind = true
  distinct : node.registry.topics.Nodup

/-- Neither registrations nor sessions change. -/
structure Untouched (node : Node σ κ ρ α) (events : List (Event ρ)) (next : Node σ κ ρ α) :
    Prop where
  registry : next.registry = node.registry
  silent : ∀ topic, ∀ event ∈ events, event.session? topic = none

section Steps

variable {node middle next last : Node σ κ ρ α} {past events rest history : List (Event ρ)}

theorem InStep.of_untouched (h : InStep past node) (huntouched : Untouched node events next) :
    InStep (past ++ events) next := by
  obtain ⟨hregistry, hsilent⟩ := huntouched
  constructor
  · intro topic
    rw [isSubscribed, hregistry, opened_iff_latest, latest_append_of_silent (hsilent topic),
      ← opened_iff_latest]
    exact h.opened topic
  · intro topic
    rw [isSubscribed, hregistry]
    exact h.valid topic
  · rw [hregistry]
    exact h.distinct

theorem Untouched.append (hfirst : Untouched node events middle)
    (hrest : Untouched middle rest last) : Untouched node (events ++ rest) last := by
  refine ⟨hrest.registry.trans hfirst.registry, fun topic event hevent => ?_⟩
  obtain hevent | hevent := List.mem_append.mp hevent
  · exact hfirst.silent topic event hevent
  · exact hrest.silent topic event hevent

theorem Untouched.of_withQueue {queue : ReceiveQueue}
    (h : Untouched (node.withQueue queue) events next) : Untouched node events next :=
  ⟨h.registry, h.silent⟩

/-- A call closes the session of a topic once if it removes the topic, and else not at all. -/
def Closes (node : Node σ κ ρ α) (events : List (Event ρ)) (next : Node σ κ ρ α) : Prop :=
  ∀ topic, events.countP (Event.closes topic) =
    if node.isSubscribed topic = true ∧ next.isSubscribed topic = false then 1 else 0

theorem Untouched.closes (h : Untouched node events next) : Closes node events next := by
  intro topic
  have hnone : events.countP (Event.closes topic) = 0 :=
    List.countP_eq_zero.mpr fun event hevent => by simp [Event.closes, h.silent topic event hevent]
  rw [hnone, isSubscribed, isSubscribed, h.registry, if_neg (by simp)]

variable [Engine σ]

theorem Processes.untouched [Receiver ρ (Shared α)] {frame : ReceivedFrame}
    (h : node.Processes frame events next) : Untouched node events next := by
  cases h <;> exact ⟨rfl, by simp [Event.session?]⟩

theorem Receives.untouched [Receiver ρ (Shared α)] {count : Nat}
    (h : node.Receives count events next) : Untouched node events next := by
  induction h with
  | done | dry => exact ⟨rfl, by simp⟩
  | next _ hprocess _ ih => exact hprocess.untouched.of_withQueue.append ih

theorem Looks.untouched [Clock κ] [Transmitter τ] {transmitter final : τ} {again : Bool}
    (h : node.Looks transmitter events again next final) : Untouched node events next := by
  cases h <;> exact ⟨rfl, by simp [Event.session?]⟩

theorem Drains.untouched [Clock κ] [Transmitter τ] {transmitter final : τ}
    (h : node.Drains transmitter events last final) : Untouched node events last := by
  induction h with
  | stop hlook => exact hlook.untouched
  | more hlook _ ih => exact hlook.untouched.append ih

theorem Handles.inStep [Clock κ] {call : Call ρ τ} (h : node.Handles call events next)
    (hinstep : InStep past node) : InStep (past ++ events) next := by
  cases h with
  | @subscribed topic params receiver engine registry hvalid hsession hinsert =>
      constructor
      · intro other
        rw [opened_iff_latest, List.append_cons,
          latest_append_of_silent (by simp [Event.session?]), latest_concat]
        by_cases hother : other = topic
        · simp [isSubscribed, Registry.contains_insert hinsert, hother, Event.session?]
        · simpa [isSubscribed, Registry.contains_insert hinsert, hother, Ne.symm hother,
            Event.session?, opened_iff_latest] using hinstep.opened other
      · intro other hother
        obtain rfl | hother := (Registry.contains_insert hinsert).mp hother
        · exact hvalid
        · exact hinstep.valid other hother
      · exact Registry.nodup_topics_insert hinsert hinstep.distinct
  | @unsubscribed topic closed engine heap hknown hsession =>
      constructor
      · intro other
        rw [opened_iff_latest, List.append_cons,
          latest_append_of_silent (by simp [Event.session?]), latest_concat]
        by_cases hother : other = topic
        · simp [isSubscribed, Registry.contains_erase, hother, Event.session?]
        · simpa [isSubscribed, Registry.contains_erase, hother, Ne.symm hother, Event.session?,
            opened_iff_latest] using hinstep.opened other
      · intro other hother
        exact hinstep.valid other (Registry.contains_erase.mp hother).2
      · exact Registry.nodup_topics_erase topic hinstep.distinct
  | _ => exact hinstep.of_untouched ⟨rfl, by simp [Event.session?]⟩

theorem Step.inStep [Clock κ] [Receiver ρ (Shared α)] [Transmitter τ]
    (h : node.Step τ events next) (hinstep : InStep past node) : InStep (past ++ events) next := by
  cases h with
  | process _ hprocess => exact hinstep.of_untouched hprocess.untouched.of_withQueue
  | look hlook => exact hinstep.of_untouched hlook.untouched
  | handle hhandle => exact hhandle.inStep hinstep

theorem Steps.inStep [Clock κ] [Receiver ρ (Shared α)] [Transmitter τ]
    (h : node.Steps τ history last) (hinstep : InStep [] node) : InStep history last :=
  h.invariant (fun hpast hstep => hstep.inStep hpast) hinstep

theorem Step.capacity_eq [Clock κ] [Receiver ρ (Shared α)] [Transmitter τ]
    (h : node.Step τ events next) : next.registry.capacity = node.registry.capacity := by
  cases h with
  | process _ hprocess => exact congrArg Registry.capacity hprocess.untouched.registry
  | look hlook => exact congrArg Registry.capacity hlook.untouched.registry
  | handle hhandle =>
      cases hhandle with
      | subscribed _ _ hinsert => exact Registry.capacity_insert hinsert
      | _ => rfl

theorem Steps.capacity_eq [Clock κ] [Receiver ρ (Shared α)] [Transmitter τ]
    (h : node.Steps τ history last) : last.registry.capacity = node.registry.capacity :=
  h.invariant (P := fun _ next => next.registry.capacity = node.registry.capacity)
    (fun hpast hstep => hstep.capacity_eq.trans hpast) rfl

theorem Handles.closes [Clock κ] {call : Call ρ τ} (h : node.Handles call events next) :
    Closes node events next := by
  cases h with
  | @subscribed topic params receiver engine registry hvalid hsession hinsert =>
      unfold Closes isSubscribed
      intro other
      have hkept : ¬ (node.registry.contains other = true ∧ registry.contains other = false) := by
        rintro ⟨hknown, hlost⟩
        rw [(Registry.contains_insert hinsert).mpr (.inr hknown)] at hlost
        cases hlost
      rw [if_neg hkept]
      simp [Event.closes, Event.session?]
  | @unsubscribed topic closed engine heap hknown hsession =>
      unfold Closes isSubscribed
      intro other
      by_cases hother : topic = other
      · subst hother
        have herased : (node.registry.erase topic).contains topic = false :=
          Bool.eq_false_iff.mpr fun hcontains => (Registry.contains_erase.mp hcontains).1 rfl
        rw [if_pos ⟨hknown, herased⟩]
        simp [Event.closes, Event.session?]
      · have hkept : ¬ (node.registry.contains other = true ∧
            (node.registry.erase topic).contains other = false) := by
          rintro ⟨hheld, hlost⟩
          rw [Registry.contains_erase.mpr ⟨Ne.symm hother, hheld⟩] at hlost
          cases hlost
        rw [if_neg hkept]
        simp [Event.closes, Event.session?, hother]
  | _ => exact Untouched.closes ⟨rfl, by simp [Event.session?]⟩

theorem Performs.closes [Clock κ] [Receiver ρ (Shared α)] [Transmitter τ] {call : Call ρ τ}
    (h : node.Performs call events next) : Closes node events next := by
  cases h with
  | handled hhandle => exact hhandle.closes
  | spun hreceive hdrain => exact (hreceive.untouched.append hdrain.untouched).closes

/-! ## Engines that keep what is open -/

variable {sessions : σ → Set Topic} (hkeeps : Engine.Keeps sessions)

include hkeeps

theorem Handles.sessions_eq [Clock κ] {call : Call ρ τ} (h : node.Handles call events next)
    (hcall : call.IsSubscription)
    (hsessions : sessions node.engine = {topic | node.isSubscribed topic = true}) :
    sessions next.engine = {topic | next.isSubscribed topic = true} := by
  cases h with
  | invalidPort | registryFull | unknown => exact hsessions
  | sessionRefused _ _ hsession => exact (hkeeps.refused hsession).trans hsessions
  | subscribed _ hsession hinsert =>
      rw [hkeeps.opened hsession, hsessions]
      ext other
      simp [isSubscribed, Registry.contains_insert hinsert]
  | unsubscribed _ hsession =>
      rw [hkeeps.closed hsession, hsessions]
      ext other
      simp [isSubscribed, Registry.contains_erase, and_comm]
  | enqueued | notEnqueued | received | arrived | clockRead => exact hcall.elim

theorem Runs.sessions_eq [Clock κ] [Receiver ρ (Shared α)] [Transmitter τ]
    {calls : List (Call ρ τ)} (h : node.Runs calls history last)
    (hcalls : ∀ call ∈ calls, call.IsSubscription)
    (hsessions : sessions node.engine = {topic | node.isSubscribed topic = true}) :
    sessions last.engine = {topic | last.isSubscribed topic = true} := by
  induction h with
  | nil => exact hsessions
  | cons hfirst _ ih =>
      obtain ⟨hcall, hrest⟩ := List.forall_mem_cons.mp hcalls
      cases hfirst with
      | handled hhandle => exact ih hrest (hhandle.sessions_eq hkeeps hcall hsessions)
      | spun => exact hcall.elim

end Steps

/-- After every run from an empty registry, and where a fault ends one early, the registered topics
are those with an open session, whatever the engine answers; each next call closes the sessions of
the topics that it removes.  If subscriptions are all that is called, an engine that keeps sessions
keeps those. -/
theorem sessions_in_step [Engine σ] [Clock κ] [Receiver ρ (Shared α)] [Transmitter τ]
    {node : Node σ κ ρ α} (hempty : node.registry.entries = []) (calls : List (Call ρ τ)) :
    node.Adequate calls ∧
    (∀ (first last : Node (Traced σ) κ ρ α) history, first.Steps τ history last →
      last.engine.calls = first.engine.calls ++ history.filterMap Event.call?) ∧
    (∀ last history, node.Reaches calls history last → InStep history last) ∧
    ∀ last history, node.Runs calls history last →
      InStep history last ∧
      (∀ topic, topic ∈ last.registry.topics ↔ last.isSubscribed topic = true) ∧
      last.registry.topics.length ≤ node.registry.capacity ∧
      (∀ (call : Call ρ τ) events next, last.Performs call events next →
        Closes last events next) ∧
      ∀ sessions : σ → Set Topic, Engine.Keeps sessions → sessions node.engine = ∅ →
        (∀ call ∈ calls, call.IsSubscription) →
          sessions last.engine = {topic | last.isSubscribed topic = true} := by
  have hnone : ∀ topic, node.isSubscribed topic = false := by
    simp [isSubscribed, Registry.contains, Registry.find?, hempty]
  have hinstep : InStep [] node := by
    refine ⟨fun topic => ?_, fun topic htopic => ?_, ?_⟩
    · simp [hnone, opened_iff_latest, latest]
    · rw [hnone] at htopic
      cases htopic
    · simp [Registry.topics, hempty]
  refine ⟨adequate node calls, fun first last history hsteps => hsteps.calls_eq,
    fun last history hreaches => hreaches.steps.inStep hinstep,
    fun last history hruns => ⟨?_, ?_, ?_, ?_, ?_⟩⟩
  · exact hruns.steps.inStep hinstep
  · exact fun topic => Registry.mem_topics
  · rw [Registry.topics, List.length_map, ← hruns.steps.capacity_eq]
    exact last.registry.bounded
  · exact fun call events next hperforms => hperforms.closes
  · intro sessions hkeeps hsessions hcalls
    exact hruns.sessions_eq hkeeps hcalls (by simp [hsessions, hnone])

def sampleRegistrations : List (Call Recorder ScriptedTransmitter) :=
  [.subscribe (.message (.ofNat 100)) { extent := 16 } ⟨1⟩,
    .subscribe (.request (.ofNat 100)) { extent := 16 } ⟨2⟩,
    .subscribe (.response (.ofNat 100)) { extent := 16 } ⟨3⟩,
    .unsubscribe (.message (.ofNat 100)), .unsubscribe (.message (.ofNat 100))]

/-- One topic is left, and one session was closed. -/
theorem sessions_in_step_sample :
    ∃ node last history, ScriptedNode.start [] = .ok node ∧ node.registry.entries = [] ∧
      node.Runs sampleRegistrations history last ∧ InStep history last ∧
      last.engine.openTopics = {topic | last.isSubscribed topic = true} ∧
      last.registry.topics = [.request (.ofNat 100)] ∧ last.engine.unsubscribed = 1 := by
  obtain ⟨node, last, hstart, hrun, hlast⟩ := ScriptedNode.exists_run_of_rehearse
    (p := fun last => decide (last.registry.topics = [.request (.ofNat 100)] ∧
      last.engine.unsubscribed = 1))
    (show (ScriptedNode.rehearse [] sampleRegistrations).any _ = true by decide +kernel)
  have hinitial : node.registry.entries = [] ∧ node.engine.openTopics = ∅ := by
    obtain ⟨heap, -, rfl⟩ := start_eq_ok hstart
    exact ⟨rfl, Set.eq_empty_of_forall_notMem fun topic htopic => by cases htopic⟩
  obtain ⟨hadequate, -, -, hall⟩ := sessions_in_step hinitial.1 sampleRegistrations
  obtain ⟨history, hhistory⟩ := hadequate.sound last hrun
  obtain ⟨hinstep, -, -, -, hsessions⟩ := hall last history hhistory
  have hopen := hsessions _ TailByteEngine.keeps hinitial.2
    (by simp [sampleRegistrations, Call.IsSubscription])
  exact ⟨node, last, history, hstart, hinitial.1, hhistory, hinstep, hopen,
    of_decide_eq_true hlast⟩

end Node

end CanNode
