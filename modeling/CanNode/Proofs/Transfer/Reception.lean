import CanNode.Proofs.Heap.Canonical
import CanNode.Proofs.Heap.Holdings
import CanNode.Proofs.Heap.Usage
import CanNode.Transfer.Delivery

/-!
# Received transfers leave no trace

A received transfer takes up a block while somebody looks at it, and gives it back when it is
dropped.  `Heap.receiveAll` receives transfers one after the other.  `Heap.receiveAll_traceless`
says that nothing of what came before shows: each transfer fares as on a fresh heap of the same
capacity, and leaves one free fragment behind.
-/

namespace CanNode

/-! ## Reception -/

inductive Aspect where
  | metadata
  | timestamp
  | payload
deriving DecidableEq

inductive Sight where
  | metadata (metadata : Metadata)
  | timestamp (timestamp : Micros)
  | payload (data : Bytes)
deriving DecidableEq

/-- A transfer that comes in, and what it is asked before it is dropped. -/
structure Incoming where
  metadata : Metadata
  timestamp : Micros
  data : Bytes
  asked : List Aspect

/-- What comes of a transfer: the block it was kept in, if it needed one, and its answers. -/
inductive Outcome where
  | refused
  | received (block : Option Block) (answers : List Sight)
deriving DecidableEq

def Delivery.look (delivery : Delivery) : Aspect → Except Fault Sight
  | .metadata => .ok (.metadata delivery.metadata)
  | .timestamp => .ok (.timestamp delivery.timestamp)
  | .payload => Sight.payload <$> delivery.payload

namespace Heap

/-- Receive a transfer: keep its data, let it be looked at and drop it. -/
def receive (heap : Heap) (incoming : Incoming) : Except Fault (Outcome × Heap) := do
  let (transfer, heap) ←
    Transfer.create heap incoming.metadata incoming.timestamp incoming.data
  match transfer with
  | none => return (.refused, heap)
  | some transfer =>
      let delivery : Delivery := { heap, transfer }
      let answers ← incoming.asked.mapM delivery.look
      let heap ← delivery.release
      return (.received transfer.payload answers, heap)

def receiveAll (heap : Heap) : List Incoming → Except Fault (List (Outcome × Heap))
  | [] => .ok []
  | incoming :: rest => do
      let (outcome, next) ← heap.receive incoming
      let results ← next.receiveAll rest
      return (outcome, next) :: results

end Heap

/-! ## What is expected -/

namespace Incoming

def answer (incoming : Incoming) : Aspect → Sight
  | .metadata => .metadata incoming.metadata
  | .timestamp => .timestamp incoming.timestamp
  | .payload => .payload incoming.data

def outcome (incoming : Incoming) (capacity : Nat) : Outcome :=
  let answers := incoming.asked.map incoming.answer
  if incoming.data = [] then
    .received none answers
  else if capacity < Heap.fragmentSize incoming.data.length then
    .refused
  else
    .received (some ⟨0, incoming.data.length⟩) answers

theorem mapM_look (incoming : Incoming) (delivery : Delivery)
    (hmetadata : delivery.metadata = incoming.metadata)
    (htimestamp : delivery.timestamp = incoming.timestamp)
    (hpayload : delivery.payload = .ok incoming.data) (asked : List Aspect) :
    asked.mapM delivery.look = .ok (asked.map incoming.answer) := by
  have hlook : ∀ aspect, delivery.look aspect = .ok (incoming.answer aspect) := by
    intro aspect
    cases aspect <;> simp [Delivery.look, answer, hmetadata, htimestamp, hpayload]
  induction asked with
  | nil => rfl
  | cons aspect rest ih => simp [hlook, ih, bind, Except.bind, pure, Except.pure]

end Incoming

/-! ## One transfer -/

namespace Ledger

variable {arena : Arena} {heap : Heap} {values : Bytes}

theorem Reachable.whole (h : Reachable arena ⟨heap, []⟩) :
    ∃ chains, heap.Sound [Heap.wholeFragment arena] chains := by
  obtain ⟨⟨fragments, chains, hsound⟩, hcapacity, hpos⟩ := h.sound
  obtain rfl := hsound.eq_whole_of_live_eq_nil hcapacity hpos rfl
  exact ⟨chains, hsound.heap⟩

theorem Reachable.store_refused (h : Reachable arena ⟨heap, []⟩) (hpos : 0 < values.length)
    (hlarge : Heap.usable arena < Heap.fragmentSize values.length) :
    ∃ after, heap.store values = .ok (none, after) ∧ Reachable arena ⟨after, []⟩ ∧
      after.usage.refused = heap.usage.refused + 1 := by
  obtain ⟨chains, hsound⟩ := h.whole
  have hallocate := hsound.allocate_none hpos fun f hf _ => by
    rw [List.mem_singleton.mp hf]
    exact hlarge
  have hallowed : (Request.allocate values.length).Allowed [] := trivial
  have hreach := h.perform hallowed (perform_allocate hallocate)
  exact ⟨_, by simp [Heap.store, hallocate, bind, Except.bind, pure, Except.pure], hreach, rfl⟩

theorem Reachable.store_served (h : Reachable arena ⟨heap, []⟩) (hpos : 0 < values.length)
    (hfits : Heap.fragmentSize values.length ≤ Heap.usable arena) :
    ∃ stored after, heap.store values = .ok (some ⟨0, values.length⟩, stored) ∧
      stored.read ⟨0, values.length⟩ = .ok values ∧
      stored.free ⟨0, values.length⟩ = .ok after ∧ Reachable arena ⟨after, []⟩ ∧
      after.usage.refused = heap.usage.refused := by
  obtain ⟨chains, hsound⟩ := h.whole
  obtain ⟨left, x, right, reserved, hsplit, -, -, hallocate, -, husage, -⟩ :=
    hsound.allocate_some hpos ⟨_, List.mem_singleton_self _, rfl, hfits⟩
  obtain rfl : x = Heap.wholeFragment arena := by
    rw [← List.mem_singleton, hsplit]
    simp
  have hblock : (⟨0, values.length⟩ : Block) ∈ [(⟨0, values.length⟩ : Block)] :=
    List.mem_singleton_self _
  have hallowed : (Request.allocate values.length).Allowed [] := trivial
  have hreserved := h.perform hallowed (perform_allocate hallocate)
  have hreserved : Reachable arena ⟨reserved, [⟨0, values.length⟩]⟩ := hreserved
  obtain ⟨⟨fragments₁, chains₁, hsound₁⟩, -⟩ := hreserved.sound
  obtain ⟨stored, hwrite, -⟩ := hsound₁.write hblock (Nat.le_of_eq (Nat.zero_add _))
  have hstored : Reachable arena ⟨stored, [⟨0, values.length⟩]⟩ := by
    have hallowed : (Request.write ⟨0, values.length⟩ 0 values).Allowed [⟨0, values.length⟩] :=
      ⟨hblock, Nat.le_of_eq (Nat.zero_add _)⟩
    exact hreserved.perform hallowed (perform_write hwrite)
  obtain ⟨⟨fragments₂, chains₂, hsound₂⟩, -⟩ := hstored.sound
  obtain ⟨after, hfree, -⟩ := hsound₂.free hblock
  have hafter : Reachable arena ⟨after, []⟩ := by
    have hallowed : (Request.free ⟨0, values.length⟩).Allowed [⟨0, values.length⟩] := hblock
    simpa using hstored.perform hallowed (perform_free hfree)
  refine ⟨stored, after, ?_, Heap.read_of_write rfl hwrite, hfree, hafter, ?_⟩
  · have hallocate : heap.allocate values.length = .ok (some ⟨0, values.length⟩, reserved) :=
      hallocate
    simp [Heap.store, hallocate, hwrite, bind, Except.bind, pure, Except.pure]
  · rw [Heap.refused_free hfree, Heap.usage_write hwrite, husage]
    rfl

end Ledger

namespace Heap

open Ledger (Reachable)

variable {arena : Arena} {heap : Heap}

/-- One transfer: what comes of it depends on the capacity alone, and nothing stays in use. -/
theorem receive_eq (h : Reachable arena ⟨heap, []⟩) (incoming : Incoming) :
    ∃ after, heap.receive incoming = .ok (incoming.outcome (usable arena), after) ∧
      Reachable arena ⟨after, []⟩ ∧ after.usage.refused =
        heap.usage.refused + [incoming.outcome (usable arena)].count .refused := by
  obtain ⟨metadata, timestamp, data, asked⟩ := incoming
  by_cases hempty : data = []
  · subst hempty
    have hanswers := Incoming.mapM_look ⟨metadata, timestamp, [], asked⟩
      ⟨heap, metadata, timestamp, none⟩ rfl rfl rfl asked
    refine ⟨heap, ?_, h, rfl⟩
    simp [receive, Transfer.create, Delivery.release, Incoming.outcome, hanswers, bind,
      Except.bind, pure, Except.pure]
  have hpos : 0 < data.length := List.length_pos_iff.mpr hempty
  by_cases hlarge : usable arena < fragmentSize data.length
  · obtain ⟨after, hstore, hafter, hrefused⟩ := h.store_refused hpos hlarge
    refine ⟨after, ?_, hafter, ?_⟩
    · simp [receive, Transfer.create, Incoming.outcome, hempty, hlarge, hstore, bind, Except.bind,
        pure, Except.pure]
    · simpa [Incoming.outcome, hempty, hlarge] using hrefused
  · obtain ⟨stored, after, hstore, hread, hfree, hafter, hrefused⟩ :=
      h.store_served hpos (Nat.not_lt.mp hlarge)
    have hanswers := Incoming.mapM_look ⟨metadata, timestamp, data, asked⟩
      ⟨stored, metadata, timestamp, some ⟨0, data.length⟩⟩ rfl rfl hread asked
    refine ⟨after, ?_, hafter, ?_⟩
    · simp [receive, Transfer.create, Delivery.release, Incoming.outcome, hempty, hlarge, hstore,
        hfree, hanswers, bind, Except.bind, pure, Except.pure]
    · simpa [Incoming.outcome, hempty, hlarge] using hrefused

/-! ## Transfers in sequence -/

/-- All transfers: each result is that of its transfer alone, and nothing stays in use. -/
theorem receiveAll_eq (h : Reachable arena ⟨heap, []⟩) (transfers : List Incoming) :
    ∃ results, heap.receiveAll transfers = .ok results ∧
      results.map Prod.fst = transfers.map (·.outcome (usable arena)) ∧
      ∀ i outcome after, results[i]? = some (outcome, after) →
        Reachable arena ⟨after, []⟩ ∧ after.usage.refused =
          heap.usage.refused + ((results.take (i + 1)).map Prod.fst).count .refused := by
  -- the heap is any of which nothing is in use, as the first transfer leaves it to the others
  induction transfers generalizing heap with
  | nil => exact ⟨[], rfl, rfl, by simp⟩
  | cons incoming rest ih =>
      obtain ⟨next, hfirst, hnext, hrefused⟩ := receive_eq h incoming
      obtain ⟨results, hrest, houtcomes, hresults⟩ := ih hnext
      refine ⟨(incoming.outcome (usable arena), next) :: results, ?_, ?_, ?_⟩
      · simp [receiveAll, hfirst, hrest, bind, Except.bind, pure, Except.pure]
      · rw [List.map_cons, List.map_cons, houtcomes]
      · intro i outcome after hresult
        cases i with
        | zero =>
            cases hresult
            exact ⟨hnext, hrefused⟩
        | succ i =>
            obtain ⟨hafter, hcount⟩ := hresults i outcome after hresult
            refine ⟨hafter, ?_⟩
            rw [hcount, hrefused, Nat.add_assoc, ← List.count_append]
            rfl

/-- However many transfers are received one after the other, each fares as it would alone on any
fresh heap of the same capacity.  After each nothing is in use, the heap is one free fragment, and
the refused transfers are counted. -/
theorem receiveAll_traceless (hformat : format arena = .ok heap) (transfers : List Incoming) :
    ∃ results, heap.receiveAll transfers = .ok results ∧
      results.map Prod.fst = transfers.map (·.outcome heap.usage.capacity) ∧
      ∀ i transfer outcome after, transfers[i]? = some transfer →
        results[i]? = some (outcome, after) →
          (∀ arena' fresh, format arena' = .ok fresh →
            fresh.usage.capacity = heap.usage.capacity →
              ∃ last, fresh.receive transfer = .ok (outcome, last)) ∧
          after.usage.allocated = 0 ∧ after.usage.live = 0 ∧
          after.walk = .ok (some [⟨0, heap.usage.capacity, false⟩]) ∧
          after.usage.refused = ((results.take (i + 1)).map Prod.fst).count .refused := by
  have hcapacity : heap.usage.capacity = usable arena := by rw [usage_of_format hformat]
  obtain ⟨results, hrun, houtcomes, hresults⟩ := receiveAll_eq (.of_format hformat) transfers
  rw [hcapacity]
  refine ⟨results, hrun, houtcomes, fun i transfer outcome after htransfer hresult => ?_⟩
  obtain rfl : outcome = transfer.outcome (usable arena) := by
    have hentry := congrArg (·[i]?) houtcomes
    simpa [htransfer, hresult] using hentry
  obtain ⟨hafter, hrefused⟩ := hresults i _ after hresult
  obtain ⟨chains, hsound⟩ := hafter.whole
  obtain ⟨-, hkept, hpos⟩ := hafter.sound
  refine ⟨fun arena' fresh hformat' hsame => ?_, hsound.allocated, hsound.live,
    hsound.walk_eq (hkept ▸ hpos), ?_⟩
  · obtain ⟨last, hreceive, -⟩ := receive_eq (.of_format hformat') transfer
    rw [usage_of_format hformat'] at hsame
    have hsame : usable arena' = usable arena := hsame
    exact ⟨last, hsame ▸ hreceive⟩
  · rw [hrefused, usage_of_format hformat]
    exact Nat.zero_add _

def sampleTransfers : List Incoming :=
  let metadata := Metadata.message (.ofNat 100) default
  [⟨metadata, 5, [1, 2, 3], [.payload, .timestamp, .payload]⟩, ⟨metadata, 6, [], [.payload]⟩,
    ⟨metadata, 7, List.replicate 60 0xFF, [.metadata]⟩, ⟨metadata, 5, [1, 2, 3], [.payload]⟩]

/-- Three of the four are received, the fourth like the first. -/
theorem receiveAll_traceless_sample :
    ∃ heap results, format (Arena.filled 70 0xAA) = .ok heap ∧
      heap.receiveAll sampleTransfers = .ok results ∧
      results.map Prod.fst =
        [.received (some ⟨0, 3⟩) [.payload [1, 2, 3], .timestamp 5, .payload [1, 2, 3]],
          .received none [.payload []], .refused, .received (some ⟨0, 3⟩) [.payload [1, 2, 3]]] ∧
      ∃ after, results[3]? = some (.received (some ⟨0, 3⟩) [.payload [1, 2, 3]], after) ∧
        after.walk = .ok (some [⟨0, 64, false⟩]) ∧ after.usage.refused = 1 := by
  have hmin : minimumFragment ≤ (Arena.filled 70 0xAA).size := by simp [minimumFragment]
  have hmax : (Arena.filled 70 0xAA).size ≤ noLink := by simp [noLink]
  obtain ⟨heap, hformat, -, -, husage⟩ := format_sound hmin hmax
  have hcapacity : heap.usage.capacity = 64 := by
    rw [husage]
    simp [usable, minimumFragment]
  obtain ⟨results, hrun, houtcomes, hresults⟩ := receiveAll_traceless hformat sampleTransfers
  rw [hcapacity] at houtcomes hresults
  have hlist : results.map Prod.fst =
      [.received (some ⟨0, 3⟩) [.payload [1, 2, 3], .timestamp 5, .payload [1, 2, 3]],
        .received none [.payload []], .refused, .received (some ⟨0, 3⟩) [.payload [1, 2, 3]]] :=
    houtcomes.trans (by decide +kernel)
  have hfourth : (results.map Prod.fst)[3]? =
      some (.received (some ⟨0, 3⟩) [.payload [1, 2, 3]]) := by
    rw [hlist]
    rfl
  rw [List.getElem?_map] at hfourth
  obtain ⟨⟨_, after⟩, hlast, rfl⟩ := Option.map_eq_some_iff.mp hfourth
  obtain ⟨-, -, -, hwalk, hrefused⟩ := hresults 3 _ _ after rfl hlast
  refine ⟨heap, results, hformat, hrun, hlist, after, hlast, hwalk, ?_⟩
  rw [hrefused, List.map_take, hlist]
  rfl

end Heap

end CanNode
