import CanNode.Proofs.Heap.Inspection

/-!
# The walk ends on every arena

The walk of an audit follows links through whatever the arena holds, be it headers that overlap
or lead back to each other.  It ends all the same.  It goes on from a fragment only if that
fragment leads back to the one before it, so the way back from wherever the walk has come is a
path that ends (`Heap.Roams.visits`), and such a path comes to no fragment twice.
-/

namespace CanNode

namespace Heap

variable {heap : Heap} {f : Fragment} {passed : List Nat} {prev : Option Nat} {prevFree : Bool}
  {fuel offset next x : Nat}

def headerOffsets (heap : Heap) : List Nat :=
  List.range (heap.arena.size + 1 - headerSize)

theorem mem_headerOffsets : x ∈ heap.headerOffsets ↔ x + headerSize ≤ heap.arena.size := by
  rw [headerOffsets, List.mem_range]
  simp only [headerSize]
  omega

theorem length_headerOffsets_lt (heap : Heap) :
    heap.headerOffsets.length < heap.arena.size + 1 := by
  rw [headerOffsets, List.length_range]
  simp only [headerSize]
  omega

/-! ## One iteration -/

/-- An iteration of the walk at the header of `f`, behind a fragment at `prev` that is free or
not, finds nothing wrong and goes on at `next`. -/
structure GoesOn (heap : Heap) (prev : Option Nat) (prevFree : Bool) (f : Fragment)
    (next : Nat) : Prop where
  back : heap.getLink f.offset .prev = .ok prev
  accepts : heap.Accepts f
  border : prevFree = true → f.used = true
  forth : heap.getLink f.offset .next = .ok (some next)

theorem GoesOn.walkFrom_eq (h : heap.GoesOn prev prevFree f next) (fuel : Nat) :
    heap.walkFrom (fuel + 1) f.offset prev prevFree = (do
      let rest ← heap.walkFrom fuel next (some f.offset) (!f.used)
      return rest.map (f :: ·)) :=
  walkFrom_of_accepts h.back h.accepts h.border h.forth

theorem GoesOn.endlessChain_iff (h : heap.GoesOn prev prevFree f next) :
    heap.walkFrom (fuel + 1) f.offset prev prevFree = .error .endlessChain ↔
      heap.walkFrom fuel next (some f.offset) (!f.used) = .error .endlessChain := by
  rw [h.walkFrom_eq]
  cases heap.walkFrom fuel next (some f.offset) (!f.used) with
  | error fault => exact Iff.rfl
  | ok rest => simp [bind, Except.bind, pure, Except.pure]

theorem GoesOn.mem_headerOffsets (h : heap.GoesOn prev prevFree f next) :
    f.offset ∈ heap.headerOffsets := by
  obtain ⟨word, hword, -⟩ := h.accepts.marked
  by_contra houtside
  rw [Heap.mem_headerOffsets] at houtside
  have hfit : ¬ f.offset + Field.used.offset + 4 ≤ heap.arena.size := houtside
  rw [get, if_neg hfit] at hword
  cases hword

theorem ne_endlessChain_of_get {field : Field} {fault : Fault}
    (h : heap.get offset field = .error fault) : fault ≠ .endlessChain := by
  by_cases hfit : offset + field.offset + 4 ≤ heap.arena.size
  · rw [get_of_fits hfit] at h
    cases h
  · rw [get, if_neg hfit] at h
    cases h
    exact Fault.noConfusion

theorem ne_endlessChain_of_getLink {field : Field} {fault : Fault}
    (h : heap.getLink offset field = .error fault) : fault ≠ .endlessChain :=
  ne_endlessChain_of_get (Fault.map_eq_error h)

/-- An iteration goes on, or it ends the walk, however much fuel is left. -/
theorem goesOn_or_ends (heap : Heap) (offset : Nat) (prev : Option Nat) (prevFree : Bool) :
    (∃ f next, f.offset = offset ∧ heap.GoesOn prev prevFree f next) ∨
      ∃ answer, answer ≠ .error .endlessChain ∧
        ∀ fuel, heap.walkFrom (fuel + 1) offset prev prevFree = answer := by
  -- the checks in their order: a read that faults ends the walk, and so does a wrong header
  cases hback : heap.getLink offset .prev with
  | error fault =>
      refine .inr ⟨.error fault, by simpa using ne_endlessChain_of_getLink hback, fun fuel => ?_⟩
      simp only [walkFrom, hback, bind, Except.bind]
  | ok back =>
  by_cases hprev : back = prev
  case neg =>
    refine .inr ⟨.ok none, by simp, fun fuel => ?_⟩
    simp only [walkFrom, hback, bind, Except.bind, ne_eq, hprev, not_false_eq_true, if_true]
    rfl
  subst hprev
  cases hsize : heap.get offset .size with
  | error fault =>
      refine .inr ⟨.error fault, by simpa using ne_endlessChain_of_get hsize, fun fuel => ?_⟩
      simp only [walkFrom, hback, hsize, bind, Except.bind, ne_eq, not_true, if_false]
  | ok size =>
  by_cases hfits : size < minimumFragment ∨ size % minimumFragment ≠ 0
  case pos =>
    refine .inr ⟨.ok none, by simp, fun fuel => ?_⟩
    simp only [walkFrom, hback, hsize, bind, Except.bind, ne_eq, not_true, if_false, if_pos hfits]
    rfl
  cases hword : heap.get offset .used with
  | error fault =>
      refine .inr ⟨.error fault, by simpa using ne_endlessChain_of_get hword, fun fuel => ?_⟩
      simp only [walkFrom, hback, hsize, hword, bind, Except.bind, ne_eq, not_true, if_false,
        if_neg hfits]
  | ok word =>
  by_cases hborder : (!(word == 1) && prevFree) = true
  case pos =>
    refine .inr ⟨.ok none, by simp, fun fuel => ?_⟩
    simp only [walkFrom, hback, hsize, hword, bind, Except.bind, ne_eq, not_true, if_false,
      if_neg hfits, if_pos hborder]
    rfl
  have haccepts : heap.Accepts ⟨offset, size, word == 1⟩ := by
    obtain ⟨hmin, hwhole⟩ := not_or.mp hfits
    exact ⟨hsize, Nat.not_lt.mp hmin, Nat.dvd_of_mod_eq_zero (not_not.mp hwhole), word, hword,
      beq_iff_eq⟩
  have hfree : prevFree = true → (word == 1) = true := fun hfree => by simpa [hfree] using hborder
  cases hnext : heap.getLink offset .next with
  | error fault =>
      refine .inr ⟨.error fault, by simpa using ne_endlessChain_of_getLink hnext, fun fuel => ?_⟩
      simp only [walkFrom, hback, hsize, hword, hnext, bind, Except.bind, ne_eq, not_true,
        if_false, if_neg hfits, if_neg hborder]
  | ok link =>
      cases link with
      | none =>
          exact .inr ⟨_, by simp, fun fuel => walkFrom_of_accepts hback haccepts hfree hnext⟩
      | some next => exact .inl ⟨_, next, rfl, hback, haccepts, hfree, hnext⟩

/-! ## All iterations so far -/

/-- The walk has gone on past the fragments at `passed`, the latest one first, and has come to
`offset`, behind a fragment that is free or not. -/
inductive Roams (heap : Heap) : List Nat → Nat → Bool → Prop where
  | start : heap.Roams [] 0 false
  | step {passed : List Nat} {prevFree : Bool} {f : Fragment} {next : Nat} :
      heap.Roams passed f.offset prevFree → heap.GoesOn passed.head? prevFree f next →
        heap.Roams (f.offset :: passed) next (!f.used)

namespace Roams

theorem visits (h : heap.Roams passed offset prevFree) :
    heap.Visits .prev passed.head? passed := by
  induction h with
  | start => rfl
  | step _ hstep ih => exact ⟨rfl, _, hstep.back, ih⟩

/-- Every fragment that was passed is one from which the walk went on. -/
theorem exists_goesOn (h : heap.Roams passed offset prevFree) (hx : x ∈ passed) :
    ∃ prev prevFree f next, f.offset = x ∧ heap.GoesOn prev prevFree f next := by
  induction h with
  | start => cases hx
  | step _ hstep ih =>
      rcases List.mem_cons.mp hx with rfl | hx
      · exact ⟨_, _, _, _, rfl, hstep⟩
      · exact ih hx

theorem mem_headerOffsets (h : heap.Roams passed offset prevFree) (hx : x ∈ passed) :
    x ∈ heap.headerOffsets := by
  obtain ⟨prev, prevFree, f, next, rfl, hstep⟩ := h.exists_goesOn hx
  exact hstep.mem_headerOffsets

theorem eq_zero (h : heap.Roams passed offset prevFree) (hnil : passed = []) : offset = 0 := by
  cases h with
  | start => rfl
  | step _ _ => cases hnil

theorem getLink_zero (h : heap.Roams passed offset prevFree) (hne : passed ≠ []) :
    heap.getLink 0 .prev = .ok none := by
  induction h with
  | start => exact absurd rfl hne
  | @step passed _ f _ hroams hstep ih =>
      by_cases hnil : passed = []
      · subst hnil
        rw [← hroams.eq_zero rfl]
        exact hstep.back
      · exact ih hnil

/-- A header at four leads on with the word by which the first one would lead back. -/
theorem four_notMem (h : heap.Roams passed offset prevFree) : 4 ∉ passed := by
  intro hmem
  have hback := h.getLink_zero (List.ne_nil_of_mem hmem)
  obtain ⟨prev, prevFree, f, next, hoffset, hstep⟩ := h.exists_goesOn hmem
  have hforth := hstep.forth
  rw [hoffset] at hforth
  have hsame : heap.getLink 4 .next = heap.getLink 0 .prev := rfl
  rw [hsame, hback] at hforth
  cases hforth

theorem length_le (h : heap.Roams passed offset prevFree) :
    passed.length ≤ heap.headerOffsets.length :=
  (h.visits.nodup.subperm fun _ hx => h.mem_headerOffsets hx).length_le

/-- There is an offset from which the walk never goes on. -/
theorem length_lt (h : heap.Roams passed offset prevFree)
    (hmin : minimumFragment ≤ heap.arena.size) :
    passed.length < heap.headerOffsets.length := by
  have hfour : 4 ∈ heap.headerOffsets := by
    rw [Heap.mem_headerOffsets]
    exact Nat.le_trans (by decide) hmin
  have hnodup : (4 :: passed).Nodup := List.nodup_cons.mpr ⟨h.four_notMem, h.visits.nodup⟩
  have hsub : 4 :: passed ⊆ heap.headerOffsets :=
    List.cons_subset.mpr ⟨hfour, fun _ hx => h.mem_headerOffsets hx⟩
  exact (hnodup.subperm hsub).length_le

/-- Where the walk comes back to a fragment, it finds that this one leads back to another. -/
theorem walkFrom_of_mem (h : heap.Roams passed offset prevFree) (hmem : offset ∈ passed)
    (fuel : Nat) : heap.walkFrom (fuel + 1) offset passed.head? prevFree = .ok none := by
  obtain ⟨left, right, hsplit⟩ := List.append_of_mem hmem
  have hvisits := h.visits
  obtain ⟨-, back, hback, hright⟩ := Visits.suffix (hsplit ▸ hvisits)
  have hne : back ≠ passed.head? := by
    intro heq
    have hlength := congrArg List.length (hvisits.unique (heq ▸ hright))
    rw [hsplit] at hlength
    simp at hlength
    omega
  simp only [walkFrom, hback, bind, Except.bind, ne_eq, hne, not_false_eq_true, if_true]
  rfl

/-- What is left of the fuel decides whether the walk runs out of it. -/
theorem endlessChain_iff (h : heap.Roams passed offset prevFree) (fuel : Nat) :
    heap.walkFrom (passed.length + fuel) 0 none false = .error .endlessChain ↔
      heap.walkFrom fuel offset passed.head? prevFree = .error .endlessChain := by
  induction h generalizing fuel with
  | start => rw [List.length_nil, Nat.zero_add, List.head?_nil]
  | @step passed _ f _ _ hstep ih =>
      rw [List.length_cons, Nat.add_right_comm, Nat.add_assoc, ih, hstep.endlessChain_iff,
        List.head?_cons]

end Roams

/-! ## The end of the walk -/

theorem walkFrom_add (h : heap.walkFrom fuel offset prev prevFree ≠ .error .endlessChain)
    (extra : Nat) : heap.walkFrom (fuel + extra) offset prev prevFree =
      heap.walkFrom fuel offset prev prevFree := by
  induction fuel generalizing offset prev prevFree with
  | zero => exact absurd rfl h
  | succ fuel ih =>
      rw [Nat.add_right_comm]
      rcases goesOn_or_ends heap offset prev prevFree with
        ⟨f, next, rfl, hstep⟩ | ⟨answer, -, hends⟩
      · rw [hstep.walkFrom_eq] at h ⊢
        rw [hstep.walkFrom_eq, ih]
        intro hend
        rw [hend] at h
        exact h rfl
      · rw [hends, hends]

/-- The walk runs out of fuel exactly if it goes on that many times. -/
theorem walkFrom_eq_endlessChain_iff : heap.walkFrom fuel 0 none false = .error .endlessChain ↔
    ∃ passed offset prevFree, heap.Roams passed offset prevFree ∧ passed.length = fuel := by
  constructor
  · intro h
    induction fuel with
    | zero => exact ⟨[], 0, false, .start, rfl⟩
    | succ fuel ih =>
        have hless : heap.walkFrom fuel 0 none false = .error .endlessChain := by
          by_contra hends
          exact hends (walkFrom_add hends 1 ▸ h)
        obtain ⟨passed, offset, prevFree, hroams, rfl⟩ := ih hless
        have hlast := (hroams.endlessChain_iff 1).mp h
        rcases goesOn_or_ends heap offset passed.head? prevFree with
          ⟨f, next, rfl, hstep⟩ | ⟨answer, hanswer, hends⟩
        · exact ⟨_, _, _, hroams.step hstep, rfl⟩
        · exact absurd ((hends 0).symm.trans hlast) hanswer
  · rintro ⟨passed, offset, prevFree, hroams, rfl⟩
    exact (hroams.endlessChain_iff 0).mpr rfl

theorem walkFrom_ne_endlessChain (h : ∀ {passed offset prevFree},
    heap.Roams passed offset prevFree → passed.length < fuel) :
    heap.walkFrom fuel 0 none false ≠ .error .endlessChain := by
  intro hend
  obtain ⟨passed, offset, prevFree, hroams, hlength⟩ := walkFrom_eq_endlessChain_iff.mp hend
  exact absurd hlength (Nat.ne_of_lt (h hroams))

theorem walkFrom_eq_of_ne {fuel' : Nat}
    (h : heap.walkFrom fuel offset prev prevFree ≠ .error .endlessChain)
    (h' : heap.walkFrom fuel' offset prev prevFree ≠ .error .endlessChain) :
    heap.walkFrom fuel offset prev prevFree = heap.walkFrom fuel' offset prev prevFree := by
  rcases Nat.le_total fuel fuel' with hle | hle
  · obtain ⟨extra, rfl⟩ := Nat.exists_eq_add_of_le hle
    exact (walkFrom_add h extra).symm
  · obtain ⟨extra, rfl⟩ := Nat.exists_eq_add_of_le hle
    exact walkFrom_add h' extra

/-- The walk ends on every arena, whatever it holds.  It goes on from no offset twice, and only
from offsets that hold a whole header; where it comes back to one, it answers that the heap is
damaged.  So it takes no more iterations than there are such offsets, with the one it ends with
where the arena has room for a fragment, and without that one in any case.  The bound that it is
given is not reached: with any fuel for that many iterations the answer is the same. -/
theorem walk_ends (heap : Heap) :
    (∀ passed offset prevFree, heap.Roams passed offset prevFree →
      passed.Nodup ∧ (∀ x ∈ passed, x + headerSize ≤ heap.arena.size) ∧
        passed.length ≤ heap.headerOffsets.length ∧
        (offset ∈ passed →
          ∀ fuel, heap.walkFrom (fuel + 1) offset passed.head? prevFree = .ok none)) ∧
    (∀ fuel, heap.walkFrom fuel 0 none false = .error .endlessChain ↔
      ∃ passed offset prevFree, heap.Roams passed offset prevFree ∧ passed.length = fuel) ∧
    heap.walk ≠ .error .endlessChain ∧
    (∀ fuel, heap.headerOffsets.length < fuel → heap.walkFrom fuel 0 none false = heap.walk) ∧
    (minimumFragment ≤ heap.arena.size →
      heap.walkFrom heap.headerOffsets.length 0 none false = heap.walk) := by
  have hwalk : heap.walk ≠ .error .endlessChain := walkFrom_ne_endlessChain fun hroams =>
    Nat.lt_of_le_of_lt hroams.length_le heap.length_headerOffsets_lt
  refine ⟨fun passed offset prevFree hroams => ?_, fun fuel => walkFrom_eq_endlessChain_iff, hwalk,
    fun fuel hfuel => ?_, fun hmin => ?_⟩
  · exact ⟨hroams.visits.nodup, fun x hx => mem_headerOffsets.mp (hroams.mem_headerOffsets hx),
      hroams.length_le, hroams.walkFrom_of_mem⟩
  · have hends := walkFrom_ne_endlessChain fun hroams =>
      Nat.lt_of_le_of_lt hroams.length_le hfuel
    exact walkFrom_eq_of_ne hends hwalk
  · have hends := walkFrom_ne_endlessChain fun hroams => hroams.length_lt hmin
    exact walkFrom_eq_of_ne hends hwalk

/-- A heap whose headers overlap and lead around in a circle: from zero to eight, from there to 32,
and back.  The word at eight is the size of the first fragment and the link of the second one. -/
def tangledHeap : Heap where
  arena := (Arena.filled 64 0).overlay 0
    ([8, noLink, 32, 0, 32, 1, 0, 0, 0, 8, 64, 0].flatMap (Bytes.ofNat 4))
  bins := Vector.replicate binCount none
  occupied := 0
  usage := { capacity := 64 }

private theorem tangledHeap_roams : tangledHeap.Roams [32, 8, 0] 0 true := by
  have hfirst : tangledHeap.GoesOn none false ⟨0, 32, false⟩ 8 :=
    ⟨by decide +kernel, ⟨by decide +kernel, by decide, by decide, 0, by decide +kernel, by decide⟩,
      by decide, by decide +kernel⟩
  have hsecond : tangledHeap.GoesOn (some 0) true ⟨8, 32, true⟩ 32 :=
    ⟨by decide +kernel, ⟨by decide +kernel, by decide, by decide, 1, by decide +kernel, by decide⟩,
      by decide, by decide +kernel⟩
  have hthird : tangledHeap.GoesOn (some 8) false ⟨32, 64, false⟩ 0 :=
    ⟨by decide +kernel, ⟨by decide +kernel, by decide, by decide, 0, by decide +kernel, by decide⟩,
      by decide, by decide +kernel⟩
  have hpassed : tangledHeap.Roams [0] 8 true := .step (f := ⟨0, 32, false⟩) .start hfirst
  have hpassed' : tangledHeap.Roams [8, 0] 32 false := .step (f := ⟨8, 32, true⟩) hpassed hsecond
  exact .step (f := ⟨32, 64, false⟩) hpassed' hthird

/-- The walk comes back to the first fragment and stops there. -/
theorem walk_ends_sample :
    minimumFragment ≤ tangledHeap.arena.size ∧ tangledHeap.Roams [32, 8, 0] 0 true ∧
      [32, 8, 0].Nodup ∧ (∀ x ∈ [32, 8, 0], x + headerSize ≤ tangledHeap.arena.size) ∧
      tangledHeap.walkFrom 1 0 (some 32) true = .ok none ∧
      tangledHeap.walkFrom tangledHeap.headerOffsets.length 0 none false = tangledHeap.walk := by
  have hmin : minimumFragment ≤ tangledHeap.arena.size := by decide +kernel
  obtain ⟨hroams, -, -, -, henough⟩ := walk_ends tangledHeap
  obtain ⟨hnodup, hheaders, -, hagain⟩ := hroams _ _ _ tangledHeap_roams
  exact ⟨hmin, tangledHeap_roams, hnodup, hheaders, hagain (by decide) 0, henough hmin⟩

end Heap

end CanNode
