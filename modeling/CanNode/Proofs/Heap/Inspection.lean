import CanNode.Proofs.Heap.Shape
import Mathlib.Data.List.Perm.Subperm

/-!
# What an audit reads

The walk of an audit and its chase of every bin follow links through whatever the arena holds.
`Heap.Audited` lists what they check on the way, and `Heap.exists_audited_iff` says that an audit
passes exactly when all of it holds.  The bounds on the two loops play no part in it: a path that
ends comes to no fragment twice (`Heap.Visits.nodup`), so it is never as long as the bound.
-/

namespace CanNode

namespace Heap

/-- Following a link of the fragments, from `link` on, leads through these and then ends. -/
def Visits (heap : Heap) (field : Field) : Option Nat → List Nat → Prop
  | link, [] => link = none
  | link, node :: rest =>
      link = some node ∧ ∃ next, heap.getLink node field = .ok next ∧ heap.Visits field next rest

variable {heap : Heap} {fragments : List Fragment} {chains : Chains} {bin : Fin binCount}

/-! ## Paths -/

section Paths

variable {field : Field} {link next : Option Nat} {node : Nat} {nodes nodes' left right : List Nat}

theorem visits_of_linked {forth : Field} {back : Nat → Option Nat} {before : Option Nat}
    {nodes : List Nat} (haddr : ∀ x ∈ nodes, heap.Addressable x)
    (h : Linked (heap.linkAt forth) back before nodes none) :
    heap.Visits forth nodes.head? nodes := by
  induction nodes generalizing before with
  | nil => rfl
  | cons x rest ih =>
      rcases h with ⟨-, hforth, hrest⟩
      refine ⟨rfl, heap.linkAt forth x, getLink_eq (haddr x (by simp)) forth, ?_⟩
      rw [hforth, Option.or_none]
      exact ih (fun y hy => haddr y (List.mem_cons_of_mem x hy)) hrest

theorem lt_size_of_getLink (h : heap.getLink node field = .ok next) : node < heap.arena.size := by
  obtain ⟨word, hget, -⟩ := Fault.map_eq_ok h
  by_contra houtside
  have hfit : ¬ node + field.offset + 4 ≤ heap.arena.size := by omega
  rw [get, if_neg hfit] at hget
  cases hget

namespace Visits

theorem unique (h : heap.Visits field link nodes) (h' : heap.Visits field link nodes') :
    nodes = nodes' := by
  induction nodes generalizing link nodes' with
  | nil =>
      obtain rfl : link = none := h
      cases nodes' with
      | nil => rfl
      | cons node' rest' => cases h'.1
  | cons node rest ih =>
      obtain ⟨rfl, next, hnext, hrest⟩ := h
      cases nodes' with
      | nil => cases h'
      | cons node' rest' =>
          obtain ⟨hnode, next', hnext', hrest'⟩ := h'
          cases hnode
          obtain rfl := Except.ok.inj (hnext.symm.trans hnext')
          rw [ih hrest hrest']

/-- From every node on, a path goes on in the same way. -/
theorem suffix (h : heap.Visits field link (left ++ node :: right)) :
    heap.Visits field (some node) (node :: right) := by
  induction left generalizing link with
  | nil =>
      obtain ⟨rfl, hrest⟩ := h
      exact ⟨rfl, hrest⟩
  | cons first rest ih =>
      obtain ⟨-, next, -, hrest⟩ := h
      exact ih hrest

/-- A path that ends comes to no node twice. -/
theorem nodup (h : heap.Visits field link nodes) : nodes.Nodup := by
  induction nodes generalizing link with
  | nil => exact List.nodup_nil
  | cons node rest ih =>
      obtain ⟨-, next, hnext, hrest⟩ := h
      refine List.nodup_cons.mpr ⟨fun hmem => ?_, ih hrest⟩
      -- the path from the second visit on would be a part of itself
      obtain ⟨left, right, rfl⟩ := List.append_of_mem hmem
      have hpath : heap.Visits field (some node) (node :: (left ++ node :: right)) :=
        ⟨rfl, next, hnext, hrest⟩
      have hlength := congrArg List.length (hpath.unique hrest.suffix)
      simp at hlength
      omega

theorem lt_size (h : heap.Visits field link nodes) (hnode : node ∈ nodes) :
    node < heap.arena.size := by
  obtain ⟨left, right, rfl⟩ := List.append_of_mem hnode
  obtain ⟨-, next, hnext, -⟩ := h.suffix
  exact lt_size_of_getLink hnext

theorem length_le (h : heap.Visits field link nodes) : nodes.length ≤ heap.arena.size := by
  have hsub : nodes ⊆ List.range heap.arena.size := fun x hx => List.mem_range.mpr (h.lt_size hx)
  have hle := (h.nodup.subperm hsub).length_le
  rwa [List.length_range] at hle

theorem head_eq (h : heap.Visits field (some node) (offsets fragments)) {f : Fragment}
    (hf : f ∈ fragments.head?) : f.offset = node := by
  obtain ⟨rest, rfl⟩ := List.head?_eq_some_iff.mp hf
  exact (Option.some.inj h.1).symm

end Visits

end Paths

/-! ## The walk -/

/-- The header of a fragment, as far as the walk checks it on its own.  Any word but one marks a
fragment as free. -/
structure Accepts (heap : Heap) (f : Fragment) : Prop where
  sized : heap.get f.offset .size = .ok f.size
  minimum : minimumFragment ≤ f.size
  whole : minimumFragment ∣ f.size
  marked : ∃ word, heap.get f.offset .used = .ok word ∧ (f.used = true ↔ word = 1)

/-- The walk reads these fragments from a link on, behind a fragment at `prev` that is free or
not. -/
def Walked (heap : Heap) : Option Nat → Bool → Option Nat → List Fragment → Prop
  | _, _, link, [] => link = none
  | prev, prevFree, link, f :: rest =>
      link = some f.offset ∧ heap.getLink f.offset .prev = .ok prev ∧ heap.Accepts f ∧
        (prevFree = true → f.used = true) ∧
        ∃ next, heap.getLink f.offset .next = .ok next ∧
          heap.Walked (some f.offset) (!f.used) next rest

section Walk

variable {prev link : Option Nat} {prevFree : Bool} {fuel offset : Nat}

theorem Walked.visits (h : heap.Walked prev prevFree link fragments) :
    heap.Visits .next link (offsets fragments) := by
  induction fragments generalizing prev prevFree link with
  | nil => exact h
  | cons f rest ih =>
      obtain ⟨hlink, -, -, -, next, hnext, hrest⟩ := h
      exact ⟨hlink, next, hnext, ih hrest⟩

/-- The walk goes on from a header that its checks accept. -/
theorem walkFrom_of_accepts {f : Fragment} (hprev : heap.getLink f.offset .prev = .ok prev)
    (h : heap.Accepts f) (hfree : prevFree = true → f.used = true)
    (hnext : heap.getLink f.offset .next = .ok link) :
    heap.walkFrom (fuel + 1) f.offset prev prevFree =
      match link with
      | none => .ok (some [f])
      | some next => do
          let rest ← heap.walkFrom fuel next (some f.offset) (!f.used)
          return rest.map (f :: ·) := by
  obtain ⟨word, hword, hmark⟩ := h.marked
  have hused : (word == 1) = f.used := Bool.eq_iff_iff.mpr (beq_iff_eq.trans hmark.symm)
  have hsize : ¬ (f.size < minimumFragment ∨ f.size % minimumFragment ≠ 0) := by
    rintro (hlt | hmod)
    · exact absurd h.minimum (Nat.not_le.mpr hlt)
    · exact hmod (Nat.mod_eq_zero_of_dvd h.whole)
  have hneighbours : ¬ (!f.used && prevFree) = true := by
    intro hboth
    simp only [Bool.and_eq_true, Bool.not_eq_true'] at hboth
    exact Bool.false_ne_true (hboth.1.symm.trans (hfree hboth.2))
  simp only [walkFrom, hprev, h.sized, hword, hnext, bind, Except.bind, ne_eq, not_true, if_false,
    if_neg hsize, hused, if_neg hneighbours]
  cases link <;> rfl

/-- The walk does not go on from any other header. -/
theorem accepts_of_walkFrom (h : heap.walkFrom (fuel + 1) offset prev prevFree =
    .ok (some fragments)) :
    ∃ f link, f.offset = offset ∧ heap.getLink f.offset .prev = .ok prev ∧ heap.Accepts f ∧
      (prevFree = true → f.used = true) ∧ heap.getLink f.offset .next = .ok link := by
  obtain ⟨back, hback, h⟩ := Fault.bind_eq_ok h
  split at h
  · cases h
  rename_i hprev
  rw [not_not.mp hprev] at hback
  obtain ⟨size, hsize, h⟩ := Fault.bind_eq_ok h
  split at h
  · cases h
  rename_i hfits
  rw [not_or, Nat.not_lt, not_not] at hfits
  obtain ⟨word, hword, h⟩ := Fault.bind_eq_ok h
  dsimp only at h
  split at h
  · cases h
  rename_i hneighbours
  obtain ⟨link, hlink, -⟩ := Fault.bind_eq_ok h
  refine ⟨⟨offset, size, word == 1⟩, link, rfl, hback, ?_, fun hfree => ?_, hlink⟩
  · exact ⟨hsize, hfits.1, Nat.dvd_of_mod_eq_zero hfits.2, word, hword, beq_iff_eq⟩
  · simpa [hfree] using hneighbours

theorem walkFrom_eq_some_iff : heap.walkFrom fuel offset prev prevFree = .ok (some fragments) ↔
    fragments.length ≤ fuel ∧ heap.Walked prev prevFree (some offset) fragments := by
  induction fuel generalizing offset prev prevFree fragments with
  | zero =>
      refine iff_of_false (fun h => ?_) (fun h => ?_)
      · cases h
      · obtain rfl := List.eq_nil_of_length_eq_zero (Nat.eq_zero_of_le_zero h.1)
        cases h.2
  | succ fuel ih =>
      constructor
      · intro h
        obtain ⟨f, link, rfl, hprev, haccepts, hfree, hlink⟩ := accepts_of_walkFrom h
        rw [walkFrom_of_accepts hprev haccepts hfree hlink] at h
        cases link with
        | none =>
            cases h
            exact ⟨Nat.le_add_left .., rfl, hprev, haccepts, hfree, none, hlink, rfl⟩
        | some next =>
            obtain ⟨rest, hrest, h⟩ := Fault.bind_eq_ok h
            cases rest with
            | none => cases h
            | some rest =>
                cases h
                obtain ⟨hlength, hrest⟩ := ih.mp hrest
                exact ⟨Nat.succ_le_succ hlength, rfl, hprev, haccepts, hfree, some next, hlink,
                  hrest⟩
      · rintro ⟨hlength, h⟩
        cases fragments with
        | nil => cases h
        | cons f rest =>
            obtain ⟨hoffset, hprev, haccepts, hfree, link, hlink, hrest⟩ := h
            cases hoffset
            rw [walkFrom_of_accepts hprev haccepts hfree hlink]
            cases link with
            | none =>
                cases rest with
                | nil => rfl
                | cons g rest => cases hrest.1
            | some next =>
                have hwalk := ih.mpr ⟨Nat.le_of_succ_le_succ hlength, hrest⟩
                simp [hwalk, bind, Except.bind, pure, Except.pure]

/-- The bound on the walk is never reached: a walk that ends is shorter. -/
theorem walk_eq_some_iff :
    heap.walk = .ok (some fragments) ↔ heap.Walked none false (some 0) fragments := by
  rw [walk, walkFrom_eq_some_iff, and_iff_right_iff_imp]
  intro h
  have hlength := h.visits.length_le
  rw [List.length_map] at hlength
  exact Nat.le_succ_of_le hlength

theorem walked_iff : heap.Walked prev prevFree link fragments ↔
    heap.Visits .next link (offsets fragments) ∧
      (∀ f ∈ fragments.head?, heap.getLink f.offset .prev = .ok prev ∧
        (prevFree = true → f.used = true)) ∧
      (fragments.IsChain fun f g => heap.getLink g.offset .prev = .ok (some f.offset)) ∧
      (∀ f ∈ fragments, heap.Accepts f) ∧ Coalesced fragments := by
  induction fragments generalizing prev prevFree link with
  | nil => simp [Walked, Visits, Coalesced]
  | cons f rest ih =>
      have hborder : ∀ g : Fragment,
          ((!f.used) = true → g.used = true) ↔ f.used = true ∨ g.used = true := by
        intro g
        cases f.used <;> simp
      simp only [Walked, ih, hborder, Coalesced, List.isChain_cons, List.map_cons, Visits,
        List.forall_mem_cons, List.head?_cons, Option.mem_def, Option.some.injEq, forall_eq']
      constructor
      · rintro ⟨rfl, hprev, haccepts, hfree, next, hnext, hvisits, hhead, hback, hall, hcoalesced⟩
        exact ⟨⟨rfl, next, hnext, hvisits⟩, ⟨hprev, hfree⟩, ⟨fun g hg => (hhead g hg).1, hback⟩,
          ⟨haccepts, hall⟩, fun g hg => (hhead g hg).2, hcoalesced⟩
      · rintro ⟨⟨rfl, next, hnext, hvisits⟩, ⟨hprev, hfree⟩, ⟨hhead, hback⟩, ⟨haccepts, hall⟩,
          hborders, hcoalesced⟩
        exact ⟨rfl, hprev, haccepts, hfree, next, hnext, hvisits,
          fun g hg => ⟨hhead g hg, hborders g hg⟩, hback, hall, hcoalesced⟩

end Walk

/-! ## The bins -/

/-- The fragment is one that may be in the bin, as far as an audit checks. -/
def Suits (heap : Heap) (bin : Fin binCount) (fragment : Nat) : Prop :=
  heap.get fragment .used = .ok 0 ∧
    ∃ size, heap.get fragment .size = .ok size ∧ binOf? size = some bin

section Bins

variable {link : Option Nat} {fuel : Nat}

theorem chainFits_succ {node : Nat} : heap.chainFits (fuel + 1) bin (some node) = .ok true ↔
    heap.Suits bin node ∧ ∃ next, heap.getLink node .nextFree = .ok next ∧
      heap.chainFits fuel bin next = .ok true := by
  constructor
  · intro h
    obtain ⟨word, hword, h⟩ := Fault.bind_eq_ok h
    split at h
    · cases h
    rename_i hfree
    rw [not_not.mp hfree] at hword
    obtain ⟨size, hsize, h⟩ := Fault.bind_eq_ok h
    split at h
    · cases h
    rename_i hclass
    obtain ⟨next, hnext, hrest⟩ := Fault.bind_eq_ok h
    exact ⟨⟨hword, size, hsize, not_not.mp hclass⟩, next, hnext, hrest⟩
  · rintro ⟨⟨hword, size, hsize, hclass⟩, next, hnext, hrest⟩
    simp [chainFits, hword, hsize, hclass, hnext, hrest, bind, Except.bind]

theorem chainFits_eq_true_iff : heap.chainFits fuel bin link = .ok true ↔
    ∃ chain : List Nat, chain.length ≤ fuel ∧ heap.Visits .nextFree link chain ∧
      ∀ x ∈ chain, heap.Suits bin x := by
  induction fuel generalizing link with
  | zero =>
      cases link with
      | none => exact iff_of_true rfl ⟨[], Nat.le_refl _, rfl, by simp⟩
      | some node =>
          refine iff_of_false (fun h => ?_) ?_
          · cases h
          · rintro ⟨chain, hlength, hvisits, -⟩
            obtain rfl := List.eq_nil_of_length_eq_zero (Nat.eq_zero_of_le_zero hlength)
            cases hvisits
  | succ fuel ih =>
      cases link with
      | none => exact iff_of_true rfl ⟨[], Nat.zero_le _, rfl, by simp⟩
      | some node =>
          simp only [chainFits_succ, ih]
          constructor
          · rintro ⟨hsuits, next, hnext, rest, hlength, hvisits, hall⟩
            exact ⟨node :: rest, Nat.succ_le_succ hlength, ⟨rfl, next, hnext, hvisits⟩,
              List.forall_mem_cons.mpr ⟨hsuits, hall⟩⟩
          · rintro ⟨chain, hlength, hvisits, hall⟩
            cases chain with
            | nil => cases hvisits
            | cons first rest =>
                obtain ⟨hfirst, next, hnext, hvisits⟩ := hvisits
                cases hfirst
                obtain ⟨hsuits, hall⟩ := List.forall_mem_cons.mp hall
                exact ⟨hsuits, next, hnext, rest, Nat.le_of_succ_le_succ hlength, hvisits, hall⟩

theorem binFits_eq_true_iff : heap.binFits bin = .ok true ↔
    (heap.occupied.isFlagged bin = true ↔ heap.bins.get bin ≠ none) ∧
      ∃ chain, heap.Visits .nextFree (heap.bins.get bin) chain ∧
        ∀ x ∈ chain, heap.Suits bin x := by
  have hflag : heap.occupied.isFlagged bin = (heap.bins.get bin).isSome ↔
      (heap.occupied.isFlagged bin = true ↔ heap.bins.get bin ≠ none) := by
    rw [Bool.eq_iff_iff, Option.isSome_iff_ne_none]
  rw [← hflag, binFits]
  by_cases hflagged : heap.occupied.isFlagged bin = (heap.bins.get bin).isSome
  · rw [if_neg (not_not.mpr hflagged), chainFits_eq_true_iff, and_iff_right hflagged]
    constructor
    · rintro ⟨chain, -, hchain⟩
      exact ⟨chain, hchain⟩
    · rintro ⟨chain, hvisits, hall⟩
      exact ⟨chain, Nat.le_succ_of_le hvisits.length_le, hvisits, hall⟩
  · rw [if_pos hflagged]
    exact iff_of_false (by simp) fun h => hflagged h.1

private theorem allM_eq_true_iff {bins : List (Fin binCount)}
    {test : Fin binCount → Except Fault Bool} :
    bins.allM test = .ok true ↔ ∀ bin ∈ bins, test bin = .ok true := by
  induction bins with
  | nil => simp [List.allM, pure, Except.pure]
  | cons bin rest ih =>
      rw [List.allM, List.forall_mem_cons, ← ih]
      cases test bin with
      | error fault => simp [bind, Except.bind]
      | ok passed => cases passed <;> simp [bind, Except.bind, pure, Except.pure]

end Bins

/-! ## The audit -/

/-- What an audit checks: `fragments` are those on its walk, and `chains` those that it meets in
the bins. -/
structure Audited (heap : Heap) (fragments : List Fragment) (chains : Chains) : Prop where
  visits : heap.Visits .next (some 0) (offsets fragments)
  first : heap.getLink 0 .prev = .ok none
  prev : fragments.IsChain fun f g => heap.getLink g.offset .prev = .ok (some f.offset)
  accepts : ∀ f ∈ fragments, heap.Accepts f
  coalesced : Coalesced fragments
  capacity : totalSize fragments = heap.usage.capacity
  allocated : totalSize (fragments.filter (·.used)) = heap.usage.allocated
  live : (fragments.filter (·.used)).length = heap.usage.live
  binVisits : ∀ bin, heap.Visits .nextFree (heap.bins.get bin) (chains bin)
  suits : ∀ bin, ∀ x ∈ chains bin, heap.Suits bin x
  flagged : ∀ bin, heap.occupied.isFlagged bin = true ↔ heap.bins.get bin ≠ none

theorem accountsFor_iff {usage : Usage} : accountsFor usage fragments = true ↔
    totalSize fragments = usage.capacity ∧
      totalSize (fragments.filter (·.used)) = usage.allocated ∧
      (fragments.filter (·.used)).length = usage.live := by
  simp only [accountsFor, Bool.and_eq_true, beq_iff_eq, and_assoc]

theorem audit_eq_true_iff_fits : heap.audit = .ok true ↔
    ∃ fragments, heap.walk = .ok (some fragments) ∧ accountsFor heap.usage fragments = true ∧
      ∀ bin, heap.binFits bin = .ok true := by
  constructor
  · intro h
    obtain ⟨walked, hwalk, h⟩ := Fault.bind_eq_ok h
    cases walked with
    | none => cases h
    | some fragments =>
        dsimp only at h
        split at h
        · rename_i haccounts
          rw [allM_eq_true_iff] at h
          exact ⟨fragments, hwalk, haccounts, fun bin => h bin (List.mem_finRange bin)⟩
        · cases h
  · rintro ⟨fragments, hwalk, haccounts, hbins⟩
    have hall := allM_eq_true_iff.mpr fun bin (_ : bin ∈ List.finRange binCount) => hbins bin
    simp only [audit, hwalk, bind, Except.bind, haccounts, if_true, hall]

theorem Audited.walked (h : heap.Audited fragments chains) :
    heap.Walked none false (some 0) fragments := by
  refine walked_iff.mpr
    ⟨h.visits, fun f hf => ⟨?_, by simp⟩, h.prev, h.accepts, h.coalesced⟩
  rw [h.visits.head_eq hf]
  exact h.first

theorem exists_audited_iff :
    (∃ fragments chains, heap.Audited fragments chains) ↔ heap.audit = .ok true := by
  simp only [audit_eq_true_iff_fits, walk_eq_some_iff, accountsFor_iff, binFits_eq_true_iff]
  constructor
  · rintro ⟨fragments, chains, h⟩
    exact ⟨fragments, h.walked, ⟨h.capacity, h.allocated, h.live⟩,
      fun bin => ⟨h.flagged bin, chains bin, h.binVisits bin, h.suits bin⟩⟩
  · rintro ⟨fragments, hwalked, ⟨hcapacity, hallocated, hlive⟩, hbins⟩
    obtain ⟨hvisits, hhead, hprev, haccepts, hcoalesced⟩ := walked_iff.mp hwalked
    choose hflagged chains hbinVisits hsuits using hbins
    refine ⟨fragments, chains, hvisits, ?_, hprev, haccepts, hcoalesced, hcapacity, hallocated,
      hlive, hbinVisits, hsuits, hflagged⟩
    cases fragments with
    | nil => cases hvisits
    | cons f rest =>
        rw [← hvisits.head_eq (f := f) rfl]
        exact (hhead f rfl).1

end Heap

end CanNode
