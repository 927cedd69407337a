import CanNode.Proofs.Heap.Replies
import CanNode.Proofs.Heap.Safety
import Mathlib.Algebra.BigOperators.Group.List.Basic
import Mathlib.Algebra.Ring.Nat
import Mathlib.Order.Bounds.Basic

/-!
# The counters as functions of the history

The receipts of a journal tell of every request of a run, with its answer and the ledger after it.
`Ledger.Meters` says how one request moves the counters, `Ledger.Metered` what they are after a
journal, and `Ledger.run_metered` that they are so at every point of every run.
-/

namespace CanNode

namespace Heap

theorem totalSize_eq_sum (fragments : List Fragment) :
    totalSize fragments = (fragments.map (·.size)).sum := by
  induction fragments with
  | nil => rfl
  | cons f rest ih => rw [totalSize, ih, List.map_cons, List.sum_cons]

end Heap

namespace Ledger

def Request.amount : Request → Nat
  | .allocate amount => amount
  | .free _ => 0
  | .write _ _ _ => 0

/-- A request, the block it is answered with, and the ledger after it. -/
structure Receipt where
  request : Request
  block : Option Block
  ledger : Ledger

namespace Receipt

def isServed (receipt : Receipt) : Bool :=
  receipt.block.isSome

def isRelease (receipt : Receipt) : Bool :=
  match receipt.request with
  | .free _ => true
  | _ => false

/-- Something was asked for and not handed out. -/
def isRefusal (receipt : Receipt) : Bool :=
  receipt.request.amount != 0 && !receipt.isServed

end Receipt

def journal (ledger : Ledger) : List Request → Except Fault (List Receipt)
  | [] => .ok []
  | request :: rest => do
      let block ← ledger.answer request
      let next ← ledger.perform request
      let others ← next.journal rest
      return ⟨request, block, next⟩ :: others

def point (first : Ledger) (past : List Receipt) : Ledger :=
  (past.getLast?.map (·.ledger)).getD first

def levels (first : Ledger) (past : List Receipt) : Set Nat :=
  {level | ∃ earlier, earlier <+: past ∧ (point first earlier).heap.usage.allocated = level}

def amounts (past : List Receipt) : Set Nat :=
  {amount | amount = 0 ∨ ∃ receipt ∈ past, receipt.request = .allocate amount}

@[simp] theorem point_nil (first : Ledger) : point first [] = first := rfl

@[simp] theorem point_concat (first : Ledger) (past : List Receipt) (receipt : Receipt) :
    point first (past ++ [receipt]) = receipt.ledger := by
  simp [point]

theorem levels_concat (first : Ledger) (past : List Receipt) (receipt : Receipt) :
    levels first (past ++ [receipt]) =
      insert receipt.ledger.heap.usage.allocated (levels first past) := by
  ext level
  simp only [levels, List.prefix_concat_iff, Set.mem_ofPred_eq, Set.mem_insert_iff]
  constructor
  · rintro ⟨earlier, rfl | hearlier, hlevel⟩
    · rw [point_concat] at hlevel
      exact .inl hlevel.symm
    · exact .inr ⟨earlier, hearlier, hlevel⟩
  · rintro (rfl | ⟨earlier, hearlier, hlevel⟩)
    · exact ⟨past ++ [receipt], .inl rfl, by rw [point_concat]⟩
    · exact ⟨earlier, .inr hearlier, hlevel⟩

theorem amounts_concat (past : List Receipt) (receipt : Receipt) :
    amounts (past ++ [receipt]) = insert receipt.request.amount (amounts past) := by
  ext amount
  rcases receipt with ⟨request, block, ledger⟩
  cases request with
  | allocate asked =>
      simp only [amounts, Request.amount, List.mem_append, List.mem_singleton, Set.mem_ofPred_eq,
        Set.mem_insert_iff]
      constructor
      · rintro (rfl | ⟨receipt, hpast | rfl, hasked⟩)
        · exact .inr (.inl rfl)
        · exact .inr (.inr ⟨receipt, hpast, hasked⟩)
        · cases hasked
          exact .inl rfl
      · rintro (rfl | rfl | ⟨receipt, hpast, hasked⟩)
        · exact .inr ⟨_, .inr rfl, rfl⟩
        · exact .inl rfl
        · exact .inr ⟨receipt, .inl hpast, hasked⟩
  | free _ => simp [amounts, Request.amount, or_and_right, exists_or]
  | write _ _ _ => simp [amounts, Request.amount, or_and_right, exists_or]

/-! ## One request -/

/-- How a request moves the counters. -/
structure Meters (before : Ledger) (receipt : Receipt) : Prop where
  peakAllocated : receipt.ledger.heap.usage.peakAllocated =
    max receipt.ledger.heap.usage.allocated before.heap.usage.peakAllocated
  peakRequest : receipt.ledger.heap.usage.peakRequest =
    max receipt.request.amount before.heap.usage.peakRequest
  refused : receipt.ledger.heap.usage.refused =
    before.heap.usage.refused + [receipt].countP Receipt.isRefusal
  live : receipt.ledger.heap.usage.live + [receipt].countP Receipt.isRelease =
    before.heap.usage.live + [receipt].countP Receipt.isServed

/-- A request that asks for nothing moves no counters but those of what is handed out. -/
theorem Meters.of_amount_eq_zero {before : Ledger} {receipt : Receipt}
    (hamount : receipt.request.amount = 0)
    (husage : receipt.ledger.heap.usage = { before.heap.usage with
      allocated := receipt.ledger.heap.usage.allocated
      live := receipt.ledger.heap.usage.live })
    (hle : receipt.ledger.heap.usage.allocated ≤ before.heap.usage.peakAllocated)
    (hlive : receipt.ledger.heap.usage.live + [receipt].countP Receipt.isRelease =
      before.heap.usage.live + [receipt].countP Receipt.isServed) : before.Meters receipt where
  peakAllocated := by
    rw [husage]
    exact (Nat.max_eq_right hle).symm
  peakRequest := by
    rw [husage, hamount]
    exact (Nat.zero_max _).symm
  refused := by
    rw [husage]
    simp [Receipt.isRefusal, hamount]
  live := hlive

namespace Sound

variable {ledger : Ledger} {fragments : List Fragment} {chains : Chains}

theorem allocated_eq_sum (h : ledger.Sound fragments chains) :
    ledger.heap.usage.allocated =
      (ledger.live.map fun block => 2 ^ Nat.clog 2 (block.len + headerSize)).sum := by
  rw [h.heap.allocated, Heap.totalSize_eq_sum, (h.blocks.map (·.size)).sum_eq, List.map_map]
  congr 2
  funext block
  exact Heap.fragmentSize_eq_two_pow block.len

theorem meters_allocate (h : ledger.Sound fragments chains)
    (hpeak : ledger.heap.usage.allocated ≤ ledger.heap.usage.peakAllocated) (amount : Nat) :
    ∃ answer heap', ledger.heap.allocate amount = .ok (answer, heap') ∧
      ledger.Meters ⟨.allocate amount, answer, ⟨heap', answer.toList ++ ledger.live⟩⟩ := by
  rcases Nat.eq_zero_or_pos amount with rfl | hpos
  · exact ⟨none, ledger.heap, if_pos rfl, .of_amount_eq_zero rfl rfl hpeak rfl⟩
  obtain ⟨bound, bin, x, hpicks⟩ | hnone := h.heap.exists_picks_or_small hpos
  · obtain ⟨left, right, rfl⟩ := List.append_of_mem hpicks.mem
    obtain ⟨heap', hrun, -, husage, -⟩ := h.heap.allocate_of_picks hpos hpicks
    refine ⟨some ⟨x.offset, amount⟩, heap', hrun, ?_⟩
    constructor
    case peakAllocated => simp only [husage, Usage.acquire, Usage.request, Nat.max_comm]
    case peakRequest =>
      simp only [husage, Usage.acquire, Usage.request, Request.amount, Nat.max_comm]
    case refused => simp [husage, Usage.acquire, Usage.request, Receipt.isRefusal, Receipt.isServed]
    case live => simp [husage, Usage.acquire, Usage.request, Receipt.isRelease, Receipt.isServed]
  · refine ⟨none, _, h.heap.allocate_none hpos hnone, ?_⟩
    constructor
    case peakAllocated => exact (Nat.max_eq_right hpeak).symm
    case peakRequest => exact Nat.max_comm ..
    case refused =>
      simp [Usage.refuse, Usage.request, Receipt.isRefusal, Receipt.isServed, Request.amount,
        bne_iff_ne.mpr (Nat.ne_of_gt hpos)]
    case live => rfl

theorem meters_free (h : ledger.Sound fragments chains)
    (hpeak : ledger.heap.usage.allocated ≤ ledger.heap.usage.peakAllocated) {block : Block}
    (hblock : block ∈ ledger.live) :
    ∃ heap', ledger.heap.free block = .ok heap' ∧
      ledger.Meters ⟨.free block, none, ⟨heap', ledger.live.erase block⟩⟩ := by
  obtain ⟨heap', hrun, hallocated, hlive, -⟩ := h.free hblock
  exact ⟨heap', hrun, .of_amount_eq_zero rfl (Heap.usage_free hrun)
    (Nat.le_trans (Nat.le.intro hallocated) hpeak) hlive⟩

theorem meters_write (h : ledger.Sound fragments chains)
    (hpeak : ledger.heap.usage.allocated ≤ ledger.heap.usage.peakAllocated) {block : Block}
    (hblock : block ∈ ledger.live) {start : Nat} {values : Bytes}
    (hin : start + values.length ≤ block.len) :
    ∃ heap', ledger.heap.write block start values = .ok heap' ∧
      ledger.Meters ⟨.write block start values, none, ⟨heap', ledger.live⟩⟩ := by
  obtain ⟨heap', hrun, -⟩ := h.write hblock hin
  have husage := Heap.usage_write hrun
  refine ⟨heap', hrun, .of_amount_eq_zero rfl ?_ ?_ ?_⟩
  · rw [husage]
  · rw [husage]
    exact hpeak
  · rw [husage]
    rfl

/-- A request that is allowed is answered, and moves the counters as it should. -/
theorem meters (h : ledger.Sound fragments chains)
    (hpeak : ledger.heap.usage.allocated ≤ ledger.heap.usage.peakAllocated) {request : Request}
    (hallowed : request.Allowed ledger.live) :
    ∃ block next, ledger.answer request = .ok block ∧ ledger.perform request = .ok next ∧
      ledger.Meters ⟨request, block, next⟩ ∧
      (∃ fragments chains, next.Sound fragments chains) ∧
      next.heap.usage.capacity = ledger.heap.usage.capacity := by
  obtain ⟨next, hrun, hsound, hcapacity, -⟩ := h.perform hallowed
  have hnext {other : Ledger} (hother : ledger.perform request = .ok other) : other = next :=
    Except.ok.inj (hother.symm.trans hrun)
  cases request with
  | allocate amount =>
      obtain ⟨answer, heap', hallocate, hmeters⟩ := h.meters_allocate hpeak amount
      obtain rfl := hnext (perform_allocate hallocate)
      exact ⟨answer, _, answer_allocate_iff.mpr ⟨heap', hallocate⟩, hrun, hmeters, hsound,
        hcapacity⟩
  | free block =>
      obtain ⟨heap', hfree, hmeters⟩ := h.meters_free hpeak hallowed
      obtain rfl := hnext (perform_free hfree)
      exact ⟨none, _, rfl, hrun, hmeters, hsound, hcapacity⟩
  | write block start values =>
      obtain ⟨heap', hwrite, hmeters⟩ := h.meters_write hpeak hallowed.1 hallowed.2
      obtain rfl := hnext (perform_write hwrite)
      exact ⟨none, _, rfl, hrun, hmeters, hsound, hcapacity⟩

end Sound

/-! ## Runs -/

/-- What the counters are after the receipts of a journal. -/
structure Metered (usable : Nat) (first : Ledger) (past : List Receipt) : Prop where
  allocated : (point first past).heap.usage.allocated =
    ((point first past).live.map fun block => 2 ^ Nat.clog 2 (block.len + headerSize)).sum
  live : (point first past).heap.usage.live + past.countP Receipt.isRelease =
    past.countP Receipt.isServed
  peakAllocated : IsGreatest (levels first past) (point first past).heap.usage.peakAllocated
  peakRequest : IsGreatest (amounts past) (point first past).heap.usage.peakRequest
  refused : (point first past).heap.usage.refused = past.countP Receipt.isRefusal
  capacity : (point first past).heap.usage.capacity = usable
  allocated_le : (point first past).heap.usage.allocated ≤
    (point first past).heap.usage.peakAllocated
  peakAllocated_le : (point first past).heap.usage.peakAllocated ≤ usable

namespace Metered

variable {usable : Nat} {first : Ledger} {past : List Receipt} {fragments : List Fragment}
  {chains : Chains}

theorem start {heap : Heap} (h : heap.usage = { capacity := usable }) :
    Metered usable ⟨heap, []⟩ [] := by
  have hlevels : levels ⟨heap, []⟩ [] = {0} := by
    ext level
    simp [levels, h, eq_comm]
  have hamounts : amounts [] = {0} := by
    ext amount
    simp [amounts]
  constructor
  case peakAllocated =>
    rw [hlevels, point_nil, h]
    exact isGreatest_singleton
  case peakRequest =>
    rw [hamounts, point_nil, h]
    exact isGreatest_singleton
  all_goals simp [h]

theorem concat (h : Metered usable first past) {receipt : Receipt}
    (hmeters : (point first past).Meters receipt) (hsound : receipt.ledger.Sound fragments chains)
    (hcapacity : receipt.ledger.heap.usage.capacity = (point first past).heap.usage.capacity) :
    Metered usable first (past ++ [receipt]) := by
  have hcapacity := hcapacity.trans h.capacity
  constructor
  case allocated =>
    rw [point_concat]
    exact hsound.allocated_eq_sum
  case live =>
    rw [point_concat, List.countP_append, List.countP_append, ← h.live]
    have hlive := hmeters.live
    omega
  case peakAllocated =>
    rw [point_concat, levels_concat, hmeters.peakAllocated]
    exact h.peakAllocated.insert _
  case peakRequest =>
    rw [point_concat, amounts_concat, hmeters.peakRequest]
    exact h.peakRequest.insert _
  case refused =>
    rw [point_concat, hmeters.refused, h.refused, List.countP_append]
  case capacity => rw [point_concat, hcapacity]
  case allocated_le =>
    rw [point_concat, hmeters.peakAllocated]
    exact Nat.le_max_left ..
  case peakAllocated_le =>
    rw [point_concat, hmeters.peakAllocated]
    exact Nat.max_le.mpr ⟨hcapacity ▸ hsound.allocated_le, h.peakAllocated_le⟩

/-- Induction over the requests that are left; `past` are the receipts of those before them. -/
theorem journal (h : Metered usable first past)
    (hsound : (point first past).Sound fragments chains) {requests : List Request}
    (hpermits : (point first past).Permits requests) :
    ∃ receipts, (point first past).journal requests = .ok receipts ∧
      (point first past).run requests = .ok (point first (past ++ receipts)) ∧
      ∀ earlier, earlier <+: receipts → Metered usable first (past ++ earlier) := by
  induction requests generalizing past fragments chains with
  | nil =>
      refine ⟨[], rfl, by rw [List.append_nil]; rfl, fun earlier hearlier => ?_⟩
      rw [List.prefix_nil.mp hearlier, List.append_nil]
      exact h
  | cons request rest ih =>
      obtain ⟨hallowed, hrest⟩ := hpermits
      obtain ⟨block, next, hanswer, hperform, hmeters, ⟨fragments', chains', hnext⟩, hcapacity⟩ :=
        hsound.meters h.allocated_le hallowed
      have hpoint : point first (past ++ [⟨request, block, next⟩]) = next := point_concat ..
      obtain ⟨receipts, hjournal, hrun, hall⟩ := ih (h.concat hmeters hnext hcapacity)
        (hpoint.symm ▸ hnext) (hpoint.symm ▸ hrest next hperform)
      rw [hpoint] at hjournal hrun
      refine ⟨⟨request, block, next⟩ :: receipts, ?_, ?_, fun earlier hearlier => ?_⟩
      · simp [Ledger.journal, hanswer, hperform, hjournal, bind, Except.bind, pure, Except.pure]
      · rw [Ledger.run, hperform, List.append_cons]
        exact hrun
      · obtain rfl | ⟨more, rfl, hmore⟩ := List.prefix_cons_iff.mp hearlier
        · rw [List.append_nil]
          exact h
        · rw [List.append_cons]
          exact hall more hmore

end Metered

/-- Whatever an arena holds, it can be formatted, and at every point of every run of allowed
requests the counters are what the history makes of them. -/
theorem run_metered (arena : Arena) (hmin : minimumFragment ≤ arena.size)
    (hmax : arena.size ≤ noLink) :
    ∃ heap, Heap.format arena = .ok heap ∧
      ∀ requests, Permits ⟨heap, []⟩ requests →
        ∃ receipts, journal ⟨heap, []⟩ requests = .ok receipts ∧
          run ⟨heap, []⟩ requests = .ok (point ⟨heap, []⟩ receipts) ∧
          ∀ past, past <+: receipts →
            Metered (arena.size / minimumFragment * minimumFragment) ⟨heap, []⟩ past := by
  obtain ⟨heap, hformat, hheap, -, husage⟩ := Heap.format_sound hmin hmax
  have hsound : Sound ⟨heap, []⟩ _ _ :=
    ⟨hheap, List.Perm.refl _, fun block hblock => by cases hblock⟩
  refine ⟨heap, hformat, fun requests hpermits => ?_⟩
  have hstart : Metered (arena.size / minimumFragment * minimumFragment) ⟨heap, []⟩ [] :=
    .start husage
  exact hstart.journal hsound hpermits

private def meteredRequests : List Request :=
  [.allocate 1, .allocate 20, .free ⟨0, 1⟩, .allocate 1000, .allocate 0]

/-- Two blocks of which one is freed, a request that is too large, and one for nothing. -/
theorem run_metered_sample :
    minimumFragment ≤ (Arena.filled 150 0xAA).size ∧ (Arena.filled 150 0xAA).size ≤ noLink ∧
      ∃ heap receipts, Heap.format (Arena.filled 150 0xAA) = .ok heap ∧
        Permits ⟨heap, []⟩ meteredRequests ∧
        journal ⟨heap, []⟩ meteredRequests = .ok receipts ∧ Metered 128 ⟨heap, []⟩ receipts := by
  have hmin : minimumFragment ≤ (Arena.filled 150 0xAA).size := by simp [minimumFragment]
  have hmax : (Arena.filled 150 0xAA).size ≤ noLink := by simp [noLink]
  obtain ⟨heap, hformat, hruns⟩ := run_metered (Arena.filled 150 0xAA) hmin hmax
  have hpermits : Permits ⟨heap, []⟩ meteredRequests :=
    permits_of_replay (by decide +kernel) hformat
  obtain ⟨receipts, hjournal, -, hall⟩ := hruns _ hpermits
  have hmetered := hall receipts List.prefix_rfl
  rw [Arena.size_filled] at hmetered
  exact ⟨hmin, hmax, heap, receipts, hformat, hpermits, hjournal, hmetered⟩

end Ledger

end CanNode
