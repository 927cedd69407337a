import CanNode.Proofs.Heap.Holdings
import Mathlib.Data.List.Perm.Basic

/-!
# Contents of blocks

To whom it belongs, a block is an array of its own.  `Ledger.Uses` says what becomes of the arrays
of one holder when it allocates, frees and writes.  The heap that they lie in has other holders as
well: by `Ledger.Intact.uses` the arrays of all holders are still in the heap afterwards, and by
`Ledger.exists_uses_of_leads` whatever a holder does with blocks of its own can be told so.
-/

namespace CanNode

namespace Ledger

/-- A block and the bytes in it. -/
structure Entry where
  block : Block
  bytes : Bytes
deriving DecidableEq

def Entry.write (entry : Entry) (start : Nat) (values : Bytes) : Entry :=
  { entry with
    bytes := entry.bytes.take start ++ values ++ entry.bytes.drop (start + values.length) }

/-- A heap and the arrays that a holder has in it. -/
structure Stock where
  heap : Heap
  entries : List Entry

/-- The holder allocates, frees and writes, and knows of the contents of its blocks what it wrote
there and what was there before. -/
inductive Uses : Stock → Stock → Prop where
  | refl {stock} : Uses stock stock
  | order {heap entries entries' last} (hperm : entries.Perm entries')
      (hrest : Uses ⟨heap, entries'⟩ last) : Uses ⟨heap, entries⟩ last
  | refused {heap entries amount heap' last}
      (hallocate : heap.allocate amount = .ok (none, heap'))
      (hrest : Uses ⟨heap', entries⟩ last) : Uses ⟨heap, entries⟩ last
  | allocated {heap entries amount entry heap' last}
      (hallocate : heap.allocate amount = .ok (some entry.block, heap'))
      (hread : heap'.read entry.block = .ok entry.bytes)
      (hrest : Uses ⟨heap', entry :: entries⟩ last) : Uses ⟨heap, entries⟩ last
  | freed {heap entry entries heap' last} (hfree : heap.free entry.block = .ok heap')
      (hrest : Uses ⟨heap', entries⟩ last) : Uses ⟨heap, entry :: entries⟩ last
  | written {heap entry entries start values heap' last}
      (hin : start + values.length ≤ entry.block.len)
      (hwrite : heap.write entry.block start values = .ok heap')
      (hrest : Uses ⟨heap', entry.write start values :: entries⟩ last) :
      Uses ⟨heap, entry :: entries⟩ last

/-- The live blocks of a heap are those of all holders, and they contain what the holders know. -/
structure Intact (arena : Arena) (stock : Stock) : Prop where
  holds : Holds arena ⟨stock.heap, stock.entries.map Entry.block⟩
  reads : ∀ entry ∈ stock.entries, stock.heap.read entry.block = .ok entry.bytes

variable {arena : Arena} {heap heap' : Heap} {entries entries' mine mine' others : List Entry}
  {entry : Entry} {live : List Block} {block : Block}

/-! ## One request -/

namespace Intact

theorem of_format (h : Heap.format arena = .ok heap) : Intact arena ⟨heap, []⟩ :=
  ⟨.of_format h, fun _ hentry => absurd hentry List.not_mem_nil⟩

theorem perm (h : Intact arena ⟨heap, entries⟩) (hperm : entries.Perm entries') :
    Intact arena ⟨heap, entries'⟩ :=
  ⟨h.holds.leads (.of_perm (hperm.map _)),
    fun entry hentry => h.reads entry (hperm.mem_iff.mpr hentry)⟩

theorem nodup (h : Intact arena ⟨heap, entries⟩) : (entries.map Entry.block).Nodup :=
  h.holds.nodup

/-- After a request, all blocks that it does not touch read as before. -/
theorem perform (h : Intact arena ⟨heap, entries⟩) {request : Request} {next : Ledger}
    (hallowed : request.Allowed (entries.map Entry.block))
    (hrun : Ledger.perform ⟨heap, entries.map Entry.block⟩ request = .ok next) :
    Holds arena next ∧ ∀ entry ∈ entries, ¬ request.Touches entry.block →
      next.heap.read entry.block = .ok entry.bytes := by
  refine ⟨h.holds.perform hallowed hrun, fun entry hentry huntouched => ?_⟩
  obtain ⟨fragments, chains, hsound⟩ := h.holds.sound
  obtain ⟨next', hrun', ⟨fragments', chains', hsound'⟩, -, hkeeps⟩ := hsound.perform hallowed
  cases hrun.symm.trans hrun'
  have hblock := List.mem_map_of_mem (f := Entry.block) hentry
  obtain ⟨hlive, hagrees⟩ := hkeeps entry.block hblock huntouched
  have hread := h.reads entry hentry
  rw [hsound.read_eq hblock] at hread
  rw [hsound'.read_eq hlive, hagrees.slice_eq, hread]

theorem refuse (h : Intact arena ⟨heap, entries⟩) {amount : Nat}
    (hallocate : heap.allocate amount = .ok (none, heap')) : Intact arena ⟨heap', entries⟩ := by
  have hallowed : (Request.allocate amount).Allowed (entries.map Entry.block) := trivial
  obtain ⟨hholds, hreads⟩ := h.perform hallowed (perform_allocate hallocate)
  exact ⟨hholds, fun entry hentry => hreads entry hentry id⟩

theorem allocate (h : Intact arena ⟨heap, entries⟩) {amount : Nat}
    (hallocate : heap.allocate amount = .ok (some block, heap')) :
    ∃ bytes, heap'.read block = .ok bytes ∧ Intact arena ⟨heap', ⟨block, bytes⟩ :: entries⟩ := by
  have hallowed : (Request.allocate amount).Allowed (entries.map Entry.block) := trivial
  obtain ⟨hholds, hreads⟩ := h.perform hallowed (perform_allocate hallocate)
  have hblock : block ∈ block :: entries.map Entry.block := List.mem_cons_self
  obtain ⟨bytes, hread⟩ := hholds.exists_read hblock
  refine ⟨bytes, hread, hholds, List.forall_mem_cons.mpr ⟨hread, fun entry hentry => ?_⟩⟩
  exact hreads entry hentry id

theorem block_ne (h : Intact arena ⟨heap, entry :: entries⟩) {other : Entry}
    (hother : other ∈ entries) : entry.block ≠ other.block := by
  intro heq
  have hnodup := h.nodup
  rw [List.map_cons, List.nodup_cons, heq] at hnodup
  exact hnodup.1 (List.mem_map_of_mem hother)

theorem free (h : Intact arena ⟨heap, entry :: entries⟩)
    (hfree : heap.free entry.block = .ok heap') : Intact arena ⟨heap', entries⟩ := by
  have hallowed : (Request.free entry.block).Allowed ((entry :: entries).map Entry.block) :=
    List.mem_cons_self
  obtain ⟨hholds, hreads⟩ := h.perform hallowed (perform_free hfree)
  rw [List.map_cons, List.erase_cons_head] at hholds
  exact ⟨hholds, fun other hother =>
    hreads other (List.mem_cons_of_mem entry hother) (h.block_ne hother)⟩

theorem write (h : Intact arena ⟨heap, entry :: entries⟩) {start : Nat} {values : Bytes}
    (hin : start + values.length ≤ entry.block.len)
    (hwrite : heap.write entry.block start values = .ok heap') :
    Intact arena ⟨heap', entry.write start values :: entries⟩ := by
  have hblock : entry.block ∈ (entry :: entries).map Entry.block := List.mem_cons_self
  have hallowed : (Request.write entry.block start values).Allowed
      ((entry :: entries).map Entry.block) := ⟨hblock, hin⟩
  obtain ⟨hholds, hreads⟩ := h.perform hallowed (perform_write hwrite)
  refine ⟨hholds, List.forall_mem_cons.mpr ⟨?_, fun other hother =>
    hreads other (List.mem_cons_of_mem entry hother) (h.block_ne hother)⟩⟩
  -- the block itself is touched, so what it reads as comes from the write
  obtain ⟨fragments, chains, hsound⟩ := h.holds.sound
  obtain ⟨fragments', chains', hsound'⟩ := hholds.sound
  obtain ⟨written, hwritten, -, -, -, -, -, -, hslice⟩ :=
    hsound.heap.write (hsound.mem_fragments hblock) (hsound.positive _ hblock) hin
  cases hwrite.symm.trans hwritten
  have hread := h.reads entry List.mem_cons_self
  rw [hsound.read_eq hblock] at hread
  rw [Entry.write, hsound'.read_eq hblock, hslice, Except.ok.inj hread]

end Intact

/-! ## Requests in sequence -/

/-- Whatever one holder does with its arrays, they and the arrays of all others are in the heap
afterwards. -/
theorem Intact.uses (h : Intact arena ⟨heap, mine ++ others⟩)
    (huses : Uses ⟨heap, mine⟩ ⟨heap', mine'⟩) : Intact arena ⟨heap', mine' ++ others⟩ := by
  -- by induction on the uses, with the other holders' entries behind those of this one
  generalize hfirst : (⟨heap, mine⟩ : Stock) = first at huses
  generalize hlast : (⟨heap', mine'⟩ : Stock) = last at huses
  induction huses generalizing heap mine with
  | refl =>
      cases hfirst.trans hlast.symm
      exact h
  | order hperm _ ih =>
      cases hfirst
      exact ih (h.perm (hperm.append_right others)) rfl hlast
  | refused hallocate _ ih =>
      cases hfirst
      exact ih (h.refuse hallocate) rfl hlast
  | allocated hallocate hread _ ih =>
      cases hfirst
      obtain ⟨bytes, hbytes, hnext⟩ := h.allocate hallocate
      cases hread.symm.trans hbytes
      exact ih hnext rfl hlast
  | freed hfree _ ih =>
      cases hfirst
      exact ih (h.free hfree) rfl hlast
  | written hin hwrite _ ih =>
      cases hfirst
      exact ih (h.write hin hwrite) rfl hlast

theorem exists_map_eq_of_perm {α β : Type} {f : α → β} {things : List α} {images : List β}
    (hperm : (things.map f).Perm images) :
    ∃ ordered, things.Perm ordered ∧ ordered.map f = images := by
  have himages : List.Forall₂ (fun image thing => image = f thing) (things.map f) things := by
    rw [List.forall₂_map_left_iff]
    exact List.forall₂_same.mpr fun _ _ => rfl
  obtain ⟨ordered, hordered, hthings⟩ := List.perm_comp_forall₂ hperm.symm himages
  refine ⟨ordered, hthings.symm, ?_⟩
  clear hthings himages hperm
  induction hordered with
  | nil => rfl
  | cons heq _ ih => rw [List.map_cons, ih, heq]

theorem exists_option_of_map {α β : Type} {f : α → β} {things : List α} {image : Option β}
    (h : things.map f = image.toList) :
    ∃ thing : Option α, things = thing.toList ∧ thing.map f = image := by
  cases image with
  | none => exact ⟨none, List.map_eq_nil_iff.mp h, rfl⟩
  | some value =>
      obtain ⟨thing, rfl, rfl⟩ := List.map_eq_singleton_iff.mp h
      exact ⟨some thing, rfl, rfl⟩

theorem exists_front (hperm : (entries.map Entry.block).Perm live) (hblock : block ∈ live) :
    ∃ entry rest, entries.Perm (entry :: rest) ∧ entry.block = block := by
  obtain ⟨entry, hentry, rfl⟩ := List.mem_map.mp (hperm.mem_iff.mpr hblock)
  exact ⟨entry, _, List.perm_cons_erase hentry, rfl⟩

/-- Of whatever a holder does with blocks of its own, it can tell what becomes of the contents. -/
theorem exists_uses_of_leads {first last : Ledger} (hleads : Leads first last)
    (h : Intact arena ⟨first.heap, mine ++ others⟩)
    (hmine : (mine.map Entry.block).Perm first.live) :
    ∃ mine', Uses ⟨first.heap, mine⟩ ⟨last.heap, mine'⟩ ∧ mine'.map Entry.block = last.live := by
  induction hleads generalizing mine with
  | refl =>
      obtain ⟨mine', hperm, hblocks⟩ := exists_map_eq_of_perm hmine
      exact ⟨mine', .order hperm .refl, hblocks⟩
  | order hperm _ ih => exact ih h (hmine.trans hperm)
  | @request ledger request middle last hallowed hrun _ ih =>
      cases request with
      | allocate amount =>
          obtain ⟨⟨answer, heap'⟩, hallocate, hrun⟩ := Fault.bind_eq_ok hrun
          cases hrun
          cases answer with
          | none =>
              obtain ⟨mine', huses, hblocks⟩ := ih (h.refuse hallocate) hmine
              exact ⟨mine', .refused hallocate huses, hblocks⟩
          | some block =>
              obtain ⟨bytes, hread, hnext⟩ := h.allocate hallocate
              have hnext : Intact arena ⟨heap', (⟨block, bytes⟩ :: mine) ++ others⟩ := hnext
              obtain ⟨mine', huses, hblocks⟩ := ih hnext (hmine.cons block)
              exact ⟨mine', .allocated hallocate hread huses, hblocks⟩
      | free block =>
          obtain ⟨heap', hfree, hrun⟩ := Fault.bind_eq_ok hrun
          cases hrun
          obtain ⟨entry, rest, hperm, rfl⟩ := exists_front hmine hallowed
          have hnext := (h.perm (hperm.append_right others)).free hfree
          have hrest : (rest.map Entry.block).Perm (ledger.live.erase entry.block) := by
            have herase := ((hperm.map Entry.block).symm.trans hmine).erase entry.block
            rwa [List.map_cons, List.erase_cons_head] at herase
          obtain ⟨mine', huses, hblocks⟩ := ih hnext hrest
          exact ⟨mine', .order hperm (.freed hfree huses), hblocks⟩
      | write block start values =>
          obtain ⟨heap', hwrite, hrun⟩ := Fault.bind_eq_ok hrun
          cases hrun
          obtain ⟨entry, rest, hperm, rfl⟩ := exists_front hmine hallowed.1
          have hnext := (h.perm (hperm.append_right others)).write hallowed.2 hwrite
          have hnext : Intact arena ⟨heap', (entry.write start values :: rest) ++ others⟩ := hnext
          obtain ⟨mine', huses, hblocks⟩ := ih hnext ((hperm.map Entry.block).symm.trans hmine)
          exact ⟨mine', .order hperm (.written hallowed.2 hwrite huses), hblocks⟩

end Ledger

end CanNode
