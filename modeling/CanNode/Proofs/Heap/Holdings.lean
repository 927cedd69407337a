import CanNode.Proofs.Heap.Ledger

/-!
# Live blocks in any order

Parts of a program that share a heap hand blocks to each other, and the order in which the blocks
were allocated is soon forgotten.  `Ledger.Holds` says that exactly these blocks of a heap are
live, in any order, and `Ledger.Leads` that allowed requests lead from one ledger to another, up to
the order of the live blocks.
-/

namespace CanNode

namespace Ledger

/-- A formatted arena leads to the heap of the ledger, with its blocks live and no others. -/
def Holds (arena : Arena) (ledger : Ledger) : Prop :=
  ∃ live, Reachable arena ⟨ledger.heap, live⟩ ∧ live.Perm ledger.live

inductive Leads : Ledger → Ledger → Prop where
  | refl {ledger} : Leads ledger ledger
  | order {heap live live' last} (hperm : live.Perm live') (hrest : Leads ⟨heap, live'⟩ last) :
      Leads ⟨heap, live⟩ last
  | request {ledger request middle last} (hallowed : request.Allowed ledger.live)
      (hrun : ledger.perform request = .ok middle) (hrest : Leads middle last) :
      Leads ledger last

variable {arena : Arena} {ledger middle next last : Ledger} {heap heap' : Heap}
  {live live' : List Block} {block : Block}

theorem Leads.trans (hfirst : Leads ledger middle) (hrest : Leads middle last) :
    Leads ledger last := by
  induction hfirst with
  | refl => exact hrest
  | order hperm _ ih => exact .order hperm (ih hrest)
  | request hallowed hrun _ ih => exact .request hallowed hrun (ih hrest)

theorem Leads.of_perm (hperm : live.Perm live') : Leads ⟨heap, live⟩ ⟨heap, live'⟩ :=
  .order hperm .refl

theorem Leads.of_request {request : Request} (hallowed : request.Allowed ledger.live)
    (hrun : ledger.perform request = .ok next) : Leads ledger next :=
  .request hallowed hrun .refl

/-! ## Reachable ledgers -/

private theorem permits_concat {requests : List Request} {request : Request}
    (hpermits : ledger.Permits requests) (hrun : ledger.run requests = .ok middle)
    (hallowed : request.Allowed middle.live) : ledger.Permits (requests ++ [request]) := by
  induction requests generalizing ledger with
  | nil =>
      cases hrun
      exact ⟨hallowed, fun _ _ => trivial⟩
  | cons first rest ih =>
      obtain ⟨second, hfirst, hrest⟩ := Fault.bind_eq_ok hrun
      refine ⟨hpermits.1, fun other hother => ?_⟩
      obtain rfl : second = other := Except.ok.inj (hfirst.symm.trans hother)
      exact ih (hpermits.2 second hfirst) hrest

theorem Reachable.perform (h : Reachable arena ledger) {request : Request}
    (hallowed : request.Allowed ledger.live) (hrun : ledger.perform request = .ok next) :
    Reachable arena next := by
  obtain ⟨heap, requests, hformat, hpermits, hledger⟩ := h
  refine ⟨heap, requests ++ [request], hformat, permits_concat hpermits hledger hallowed, ?_⟩
  rw [run_append, hledger]
  simp [run, hrun, bind, Except.bind]

theorem Request.Allowed.perm {request : Request} (h : request.Allowed live)
    (hperm : live.Perm live') : request.Allowed live' := by
  cases request with
  | allocate amount => trivial
  | free block => exact hperm.mem_iff.mp h
  | write block start values => exact ⟨hperm.mem_iff.mp h.1, h.2⟩

/-- A request does the same to live blocks in another order. -/
theorem exists_perform_of_perm {request : Request} (hperm : live.Perm live')
    (hrun : perform ⟨heap, live'⟩ request = .ok next) :
    ∃ final, perform ⟨heap, live⟩ request = .ok ⟨next.heap, final⟩ ∧ final.Perm next.live := by
  cases request with
  | allocate amount =>
      obtain ⟨⟨answer, heap'⟩, hallocate, h⟩ := Fault.bind_eq_ok hrun
      cases h
      exact ⟨_, perform_allocate hallocate, hperm.append_left _⟩
  | free block =>
      obtain ⟨heap', hfree, h⟩ := Fault.bind_eq_ok hrun
      cases h
      exact ⟨_, perform_free hfree, hperm.erase block⟩
  | write block start values =>
      obtain ⟨heap', hwrite, h⟩ := Fault.bind_eq_ok hrun
      cases h
      exact ⟨_, perform_write hwrite, hperm⟩

/-! ## What a holder can rely on -/

theorem Sound.perm {fragments : List Fragment} {chains : Chains}
    (h : Sound ⟨heap, live⟩ fragments chains) (hperm : live.Perm live') :
    Sound ⟨heap, live'⟩ fragments chains :=
  ⟨h.heap, h.blocks.trans (hperm.map _), fun block hblock =>
    h.positive block (hperm.mem_iff.mpr hblock)⟩

namespace Holds

theorem of_format (h : Heap.format arena = .ok heap) : Holds arena ⟨heap, []⟩ :=
  ⟨[], .of_format h, .refl _⟩

theorem sound (h : Holds arena ledger) : ∃ fragments chains, ledger.Sound fragments chains := by
  obtain ⟨live, hreachable, hperm⟩ := h
  obtain ⟨⟨fragments, chains, hsound⟩, -⟩ := hreachable.sound
  exact ⟨fragments, chains, hsound.perm hperm⟩

theorem perform (h : Holds arena ledger) {request : Request}
    (hallowed : request.Allowed ledger.live) (hrun : ledger.perform request = .ok next) :
    Holds arena next := by
  obtain ⟨live, hreachable, hperm⟩ := h
  obtain ⟨final, hfinal, hlive⟩ := exists_perform_of_perm hperm hrun
  exact ⟨final, hreachable.perform (hallowed.perm hperm.symm) hfinal, hlive⟩

theorem leads (h : Holds arena ledger) (hleads : Leads ledger last) : Holds arena last := by
  induction hleads with
  | refl => exact h
  | order hperm _ ih =>
      obtain ⟨live, hreachable, hlive⟩ := h
      exact ih ⟨live, hreachable, hlive.trans hperm⟩
  | request hallowed hrun _ ih => exact ih (h.perform hallowed hrun)

theorem nodup (h : Holds arena ledger) : ledger.live.Nodup := by
  obtain ⟨fragments, chains, hsound⟩ := h.sound
  exact hsound.nodup

theorem usage_live (h : Holds arena ledger) : ledger.heap.usage.live = ledger.live.length := by
  obtain ⟨fragments, chains, hsound⟩ := h.sound
  rw [hsound.heap.live, hsound.blocks.length_eq, List.length_map]

theorem exists_free (h : Holds arena ledger) (hblock : block ∈ ledger.live) :
    ∃ heap', ledger.heap.free block = .ok heap' := by
  obtain ⟨fragments, chains, hsound⟩ := h.sound
  obtain ⟨heap', hfree, -⟩ := hsound.free hblock
  exact ⟨heap', hfree⟩

theorem exists_read (h : Holds arena ledger) (hblock : block ∈ ledger.live) :
    ∃ data, ledger.heap.read block = .ok data := by
  obtain ⟨fragments, chains, hsound⟩ := h.sound
  exact ⟨_, hsound.read_eq hblock⟩

/-- A live block can be given back, and the others read as before. -/
theorem free (h : Holds arena ⟨heap, block :: live⟩) :
    ∃ heap', heap.free block = .ok heap' ∧ Holds arena ⟨heap', live⟩ ∧
      ∀ other ∈ live, heap'.read other = heap.read other := by
  obtain ⟨fragments, chains, hsound⟩ := h.sound
  have hblock : block ∈ block :: live := List.mem_cons_self
  obtain ⟨heap', hfree, -, -, ⟨fragments', chains', hsound'⟩, -, hkeeps⟩ := hsound.free hblock
  have hallowed : (Request.free block).Allowed (block :: live) := hblock
  have hnext := h.perform hallowed (perform_free hfree)
  rw [List.erase_cons_head] at hnext
  refine ⟨heap', hfree, hnext, fun other hother => ?_⟩
  have hne : block ≠ other := fun heq => (List.nodup_cons.mp h.nodup).1 (heq ▸ hother)
  have hlive := List.mem_cons_of_mem block hother
  obtain ⟨hlive', hagrees⟩ := hkeeps other hlive hne
  have hread := hsound.read_eq hlive
  have hread' := hsound'.read_eq hlive'
  rw [hread, hread', hagrees.slice_eq]

end Holds

/-! ## Requests in sequence -/

theorem Leads.free (hblock : block ∈ live) (hfree : heap.free block = .ok heap') :
    Leads ⟨heap, live⟩ ⟨heap', live.erase block⟩ := by
  have hallowed : (Request.free block).Allowed live := hblock
  exact .of_request hallowed (perform_free hfree)

/-- A stored byte string takes up one more block, if it is stored at all.  Whose block it becomes
does not matter. -/
theorem Holds.leads_store (h : Holds arena ⟨heap, live⟩) {values : Bytes} {answer : Option Block}
    (hstore : heap.store values = .ok (answer, heap')) :
    Leads ⟨heap, live'⟩ ⟨heap', answer.toList ++ live'⟩ := by
  obtain ⟨⟨reserved, middle⟩, hallocate, hstore⟩ := Fault.bind_eq_ok hstore
  have hleads : Leads ⟨heap, live'⟩ ⟨middle, reserved.toList ++ live'⟩ :=
    @Leads.of_request ⟨heap, live'⟩ _ (.allocate values.length) trivial (perform_allocate hallocate)
  cases reserved with
  | none =>
      cases hstore
      exact hleads
  | some block =>
      obtain ⟨written, hwrite, hstore⟩ := Fault.bind_eq_ok hstore
      cases hstore
      obtain ⟨fragments, chains, hsound⟩ := h.sound
      obtain ⟨answer, heap', hanswer, hlength, -⟩ := hsound.allocate values.length
      cases hallocate.symm.trans hanswer
      have hlength := hlength block rfl
      have hallowed : (Request.write block 0 values).Allowed (block :: live') :=
        ⟨List.mem_cons_self, by omega⟩
      exact hleads.trans (.of_request hallowed (perform_write hwrite))

end Ledger

end CanNode
