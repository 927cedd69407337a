import CanNode.Heap.Bins
import CanNode.Proofs.Heap.SizeClass
import CanNode.Proofs.Heap.Words

/-!
# Free lists

The bins of a heap are doubly linked lists of fragments.  `Heap.Listed` reads them so, for
fragments that may lie anywhere as long as none lies on another.  In this view linking a fragment
puts it in front of the list of its class (`Listed.link`) and unlinking drops it from wherever it
stands (`Listed.unlink`).  The only bytes that are stored are links of the fragment and of its
neighbours in the list; `Spares` names the words.
-/

namespace CanNode

/-- A list of fragments for every bin. -/
abbrev Chains := Fin binCount → List Nat

namespace Heap

variable {heap heap' : Heap} {ground : Nat → Prop} {chains : Chains} {bin : Fin binCount}
  {x y : Nat} {field other : Field} {target : Option Nat} {left right : List Nat}
  {bins : Vector (Option Nat) binCount} {occupied : BinMask}

/-! ## Words of fragments anywhere -/

/-- A word of a fragment, wherever it lies. -/
def wordOf (heap : Heap) (field : Field) (fragment : Nat) : Nat :=
  heap.arena.word (fragment + field.offset)

def linkOf (heap : Heap) (field : Field) (fragment : Nat) : Option Nat :=
  wordLink (heap.wordOf field fragment)

/-- Neither fragment begins inside the smallest one that the other can be. -/
def Apart (x y : Nat) : Prop :=
  x + minimumFragment ≤ y ∨ y + minimumFragment ≤ x

instance (x y : Nat) : Decidable (Apart x y) :=
  inferInstanceAs (Decidable (x + minimumFragment ≤ y ∨ y + minimumFragment ≤ x))

/-- Fragments that lie in the arena, at addresses that links can store, and none on another. -/
structure Scattered (heap : Heap) (ground : Nat → Prop) : Prop where
  lt_noLink : ∀ x, ground x → x < noLink
  reach : ∀ x, ground x → x + minimumFragment ≤ heap.arena.size
  apart : ∀ x y, ground x → ground y → x ≠ y → Apart x y

theorem ground_of_mem_some (hx : ground x) : ∀ y ∈ some x, ground y :=
  fun _ hy => Option.some.inj hy ▸ hx

namespace Scattered

variable {link : Option Nat}

theorem congr (h : heap.Scattered ground) (hsize : heap'.arena.size = heap.arena.size) :
    heap'.Scattered ground :=
  ⟨h.lt_noLink, hsize ▸ h.reach, h.apart⟩

theorem fits (h : heap.Scattered ground) (hx : ground x) (field : Field) :
    x + field.offset + 4 ≤ heap.arena.size := by
  have hreach := h.reach x hx
  have hfield := field.offset_add_four_le
  omega

theorem storable (h : heap.Scattered ground) (hlink : ∀ x ∈ link, ground x) : Storable link :=
  fun x hx => h.lt_noLink x (hlink x hx)

/-! ### Accesses that succeed -/

theorem get_eq (h : heap.Scattered ground) (hx : ground x) (field : Field) :
    heap.get x field = .ok (heap.wordOf field x) :=
  get_of_fits (h.fits hx field)

theorem getLink_eq (h : heap.Scattered ground) (hx : ground x) (field : Field) :
    heap.getLink x field = .ok (heap.linkOf field x) := by
  rw [getLink, h.get_eq hx field]
  rfl

theorem setLink_eq (h : heap.Scattered ground) (hx : ground x) (field : Field)
    (hlink : Storable link) :
    heap.setLink x field link = .ok (heap.putLink (some x) field link) :=
  set_of_fits (linkWord_le hlink) (h.fits hx field)

theorem setLinkOf_eq (h : heap.Scattered ground) (htarget : ∀ x ∈ target, ground x)
    (field : Field) (hlink : Storable link) :
    heap.setLinkOf target field link = .ok (heap.putLink target field link) := by
  cases target with
  | none => rfl
  | some x => exact h.setLink_eq (htarget x rfl) field hlink

theorem binOf_eq (h : heap.Scattered ground) (hx : ground x)
    (hclass : binOf? (heap.wordOf .size x) = some bin) : heap.binOf x = .ok bin := by
  rw [Heap.binOf, h.get_eq hx .size]
  simp only [bind, Except.bind, hclass]
  rfl

/-! ### Words after a store -/

theorem putLink (h : heap.Scattered ground) : (heap.putLink target field link).Scattered ground :=
  h.congr size_putLink

theorem words_apart (h : heap.Scattered ground) (hx : ground x) (hy : ground y)
    (hne : y ≠ x ∨ other ≠ field) :
    y + other.offset + 4 ≤ x + field.offset ∨ x + field.offset + 4 ≤ y + other.offset := by
  have hfield := field.offset_add_four_le
  have hother := other.offset_add_four_le
  by_cases hyx : y = x
  · have happart := Field.apart_of_ne (hne.resolve_left fun hne => hne hyx)
    omega
  · have happart := h.apart y x hy hx hyx
    simp only [Apart] at happart
    omega

theorem wordOf_putLink_of_apart (h : heap.Scattered ground) (hx : ground x)
    (hapart : y + other.offset + 4 ≤ x + field.offset ∨ x + field.offset + 4 ≤ y + other.offset) :
    (heap.putLink (some x) field link).wordOf other y = heap.wordOf other y := by
  rw [wordOf, Heap.putLink, arena_put,
    Arena.word_setWord_of_disjoint _ _ _ _ (h.fits hx field) hapart, wordOf]

theorem wordOf_putLink_of_ne (h : heap.Scattered ground) (htarget : ∀ x ∈ target, ground x)
    (hne : other ≠ field) (hy : ground y) :
    (heap.putLink target field link).wordOf other y = heap.wordOf other y := by
  cases target with
  | none => rfl
  | some x =>
      have hx := htarget x rfl
      exact h.wordOf_putLink_of_apart hx (h.words_apart hx hy (.inr hne))

theorem linkOf_putLink_of_ne (h : heap.Scattered ground) (htarget : ∀ x ∈ target, ground x)
    (hne : other ≠ field) (hy : ground y) :
    (heap.putLink target field link).linkOf other y = heap.linkOf other y := by
  rw [linkOf, linkOf, h.wordOf_putLink_of_ne htarget hne hy]

theorem linkOf_putLink_self (h : heap.Scattered ground) (htarget : ∀ x ∈ target, ground x)
    (hlink : Storable link) (hy : ground y) :
    (heap.putLink target field link).linkOf field y =
      setLinkAt (heap.linkOf field) target link y := by
  cases target with
  | none => rfl
  | some x =>
      have hx := htarget x rfl
      by_cases hyx : y = x
      · subst hyx
        have hlt : linkWord link < wordCount := Nat.lt_of_le_of_lt (linkWord_le hlink) (by decide)
        rw [setLinkAt_some, Function.update_self, linkOf, wordOf, Heap.putLink, arena_put,
          Arena.word_setWord _ _ _ (h.fits hy field), Nat.mod_eq_of_lt hlt]
        exact wordLink_linkWord fun heq => Nat.lt_irrefl noLink (hlink noLink heq)
      · rw [setLinkAt_some, Function.update_of_ne hyx, linkOf, linkOf,
          h.wordOf_putLink_of_apart hx (h.words_apart hx hy (.inl hyx))]

end Scattered

/-! ## Other bins -/

def withBins (heap : Heap) (bins : Vector (Option Nat) binCount) (occupied : BinMask) : Heap :=
  { heap with bins, occupied }

@[simp] theorem arena_withBins : (heap.withBins bins occupied).arena = heap.arena := by
  simp only [withBins]

@[simp] theorem usage_withBins : (heap.withBins bins occupied).usage = heap.usage := by
  simp only [withBins]

@[simp] theorem bins_withBins : (heap.withBins bins occupied).bins = bins := by
  simp only [withBins]

@[simp] theorem occupied_withBins : (heap.withBins bins occupied).occupied = occupied := by
  simp only [withBins]

theorem withBins_eq_self (hbins : heap.bins = bins) (hoccupied : heap.occupied = occupied) :
    heap.withBins bins occupied = heap := by
  subst hbins hoccupied
  rfl

@[simp] theorem wordOf_withBins : (heap.withBins bins occupied).wordOf field x =
    heap.wordOf field x := by
  rw [wordOf, arena_withBins, wordOf]

@[simp] theorem linkOf_withBins : (heap.withBins bins occupied).linkOf field x =
    heap.linkOf field x := by
  rw [linkOf, wordOf_withBins, linkOf]

theorem get_bins_set (bins : Vector (Option Nat) binCount) (bin other : Fin binCount)
    (head : Option Nat) :
    (bins.set bin head bin.isLt).get other = if other = bin then head else bins.get other := by
  show (bins.set bin head bin.isLt)[other.val] = if other = bin then head else bins[other.val]
  simp only [Vector.getElem_set, Fin.ext_iff, eq_comm]

/-! ## What stores of links leave alone -/

/-- The heaps have the same counters, and the same bytes but for the words in `stores`, which are
links of fragments in `ground`. -/
structure Spares (heap heap' : Heap) (ground : Nat → Prop) (stores : List (Nat × Field)) :
    Prop where
  size : heap'.arena.size = heap.arena.size
  usage : heap'.usage = heap.usage
  links : ∀ store ∈ stores, ground store.1 ∧ ¬ store.2.InHeader
  bytes : ∀ address, (∀ store ∈ stores, address < store.1 + store.2.offset ∨
    store.1 + store.2.offset + 4 ≤ address) → heap'.arena.byte address = heap.arena.byte address

def linkWords (target : Option Nat) (field : Field) : List (Nat × Field) :=
  target.toList.map (·, field)

theorem forall_mem_linkWords {p : Nat × Field → Prop} :
    (∀ store ∈ linkWords target field, p store) ↔ ∀ x ∈ target, p (x, field) := by
  simp [linkWords]

namespace Spares

variable {heap'' : Heap} {stores stores' : List (Nat × Field)}

theorem trans (h : heap.Spares heap' ground stores) (h' : heap'.Spares heap'' ground stores') :
    heap.Spares heap'' ground (stores ++ stores') where
  size := h'.size.trans h.size
  usage := h'.usage.trans h.usage
  links := List.forall_mem_append.mpr ⟨h.links, h'.links⟩
  bytes address hout := by
    have hfirst := h.bytes address fun store hstore => hout store (List.mem_append_left _ hstore)
    have hsecond := h'.bytes address fun store hstore => hout store (List.mem_append_right _ hstore)
    exact hsecond.trans hfirst

theorem withBins (h : heap.Spares heap' ground stores) :
    heap.Spares (heap'.withBins bins occupied) ground stores where
  size := by rw [arena_withBins, h.size]
  usage := by rw [usage_withBins, h.usage]
  links := h.links
  bytes := by simpa only [arena_withBins] using h.bytes

theorem word_eq (h : heap.Spares heap' ground stores) {address : Nat}
    (hout : ∀ store ∈ stores, address + 4 ≤ store.1 + store.2.offset ∨
      store.1 + store.2.offset + 4 ≤ address) :
    heap'.arena.word address = heap.arena.word address := by
  refine Arena.word_congr fun other hle hlt => h.bytes other fun store hstore => ?_
  have hapart := hout store hstore
  omega

/-- No link lies in a header, not even in that of another fragment. -/
theorem wordOf_eq (h : heap.Spares heap' ground stores) (hs : heap.Scattered ground)
    (hx : ground x) (hin : field.InHeader) : heap'.wordOf field x = heap.wordOf field x := by
  refine h.word_eq fun store hstore => ?_
  have hlink := h.links store hstore
  exact hs.words_apart hlink.1 hx (.inr fun heq => hlink.2 (heq ▸ hin))

theorem agreesOn (h : heap.Spares heap' ground stores) {region : Nat → Prop}
    (hclear : ∀ store ∈ stores, ClearOf region store.1 store.2) : AgreesOn region heap heap' :=
  fun address hin => h.bytes address fun store hstore => hclear store hstore address hin

end Spares

/-! ## The stores of linking and unlinking -/

/-- The heap with two fragments linked to each other, where there are any. -/
def splice (heap : Heap) (before after : Option Nat) : Heap :=
  (heap.putLink after .prevFree before).putLink before .nextFree after

/-- The heap with a fragment linked in front of `head`. -/
def putFront (heap : Heap) (fragment : Nat) (head : Option Nat) : Heap :=
  ((heap.putLink (some fragment) .nextFree head).putLink (some fragment) .prevFree none).putLink
    head .prevFree (some fragment)

namespace Scattered

variable {link before after head : Option Nat}

theorem spares_putLink (h : heap.Scattered ground) (htarget : ∀ x ∈ target, ground x)
    (hfield : ¬ field.InHeader) :
    heap.Spares (heap.putLink target field link) ground (linkWords target field) where
  size := size_putLink
  usage := usage_putLink
  links := forall_mem_linkWords.mpr fun x hx => ⟨htarget x hx, hfield⟩
  bytes address hout := by
    cases target with
    | none => rfl
    | some x =>
        exact byte_put (h.fits (htarget x rfl) field) (hout (x, field) (by simp [linkWords]))

theorem spares_splice (h : heap.Scattered ground) (hbefore : ∀ x ∈ before, ground x)
    (hafter : ∀ x ∈ after, ground x) : heap.Spares (heap.splice before after) ground
      (linkWords after .prevFree ++ linkWords before .nextFree) :=
  (h.spares_putLink hafter prevFree_notInHeader).trans
    (h.putLink.spares_putLink hbefore nextFree_notInHeader)

theorem nextFree_splice (h : heap.Scattered ground) (hbefore : ∀ x ∈ before, ground x)
    (hafter : ∀ x ∈ after, ground x) (hy : ground y) :
    (heap.splice before after).linkOf .nextFree y =
      setLinkAt (heap.linkOf .nextFree) before after y := by
  rw [splice, h.putLink.linkOf_putLink_self hbefore (h.storable hafter) hy]
  exact setLinkAt_congr (h.linkOf_putLink_of_ne hafter (by decide) hy)

theorem prevFree_splice (h : heap.Scattered ground) (hbefore : ∀ x ∈ before, ground x)
    (hafter : ∀ x ∈ after, ground x) (hy : ground y) :
    (heap.splice before after).linkOf .prevFree y =
      setLinkAt (heap.linkOf .prevFree) after before y := by
  rw [splice, h.putLink.linkOf_putLink_of_ne hbefore (by decide) hy,
    h.linkOf_putLink_self hafter (h.storable hbefore) hy]

theorem spares_putFront (h : heap.Scattered ground) (hx : ground x)
    (hhead : ∀ y ∈ head, ground y) : heap.Spares (heap.putFront x head) ground
      ([(x, .nextFree), (x, .prevFree)] ++ linkWords head .prevFree) := by
  have hself := ground_of_mem_some hx
  exact ((h.spares_putLink hself nextFree_notInHeader).trans
    (h.putLink.spares_putLink hself prevFree_notInHeader)).trans
      (h.putLink.putLink.spares_putLink hhead prevFree_notInHeader)

theorem nextFree_putFront (h : heap.Scattered ground) (hx : ground x)
    (hhead : ∀ y ∈ head, ground y) (hy : ground y) :
    (heap.putFront x head).linkOf .nextFree y =
      Function.update (heap.linkOf .nextFree) x head y := by
  have hself := ground_of_mem_some hx
  rw [putFront, h.putLink.putLink.linkOf_putLink_of_ne hhead (by decide) hy,
    h.putLink.linkOf_putLink_of_ne hself (by decide) hy,
    h.linkOf_putLink_self hself (h.storable hhead) hy, setLinkAt_some]

theorem prevFree_putFront (h : heap.Scattered ground) (hx : ground x)
    (hhead : ∀ y ∈ head, ground y) (hy : ground y) :
    (heap.putFront x head).linkOf .prevFree y =
      setLinkAt (Function.update (heap.linkOf .prevFree) x none) head (some x) y := by
  have hself := ground_of_mem_some hx
  rw [putFront, h.putLink.putLink.linkOf_putLink_self hhead (h.storable hself) hy]
  refine setLinkAt_congr ?_
  rw [h.putLink.linkOf_putLink_self hself storable_none hy, ← setLinkAt_some]
  exact setLinkAt_congr (h.linkOf_putLink_of_ne hself (by decide) hy)

end Scattered

/-! ## Lists in bins -/

/-- The bins of a heap hold these fragments, in this order.  Its fragments are those in `ground`,
of which some are in bins. -/
structure Listed (heap : Heap) (ground : Nat → Prop) (chains : Chains) : Prop where
  scattered : heap.Scattered ground
  members : ∀ bin, ∀ x ∈ chains bin, ground x
  classed : ∀ bin, ∀ x ∈ chains bin, binOf? (heap.wordOf .size x) = some bin
  distinct : ∀ bin, (chains bin).Nodup
  linked : ∀ bin, Linked (heap.linkOf .nextFree) (heap.linkOf .prevFree) none (chains bin) none
  head : ∀ bin, heap.bins.get bin = (chains bin).head?
  flagged : ∀ bin, heap.occupied.isFlagged bin = (chains bin).head?.isSome

/-! ## Neighbours in a list -/

theorem mem_after (hchain : chains bin = left ++ x :: right) :
    ∀ y ∈ right.head?, y ∈ chains bin :=
  fun _ hy => hchain ▸ List.mem_append_right left
    (List.mem_cons_of_mem x (List.mem_of_mem_head? hy))

theorem mem_before (hchain : chains bin = left ++ x :: right) :
    ∀ y ∈ left.getLast?, y ∈ chains bin :=
  fun _ hy => hchain ▸ List.mem_append_left (x :: right) (List.mem_of_mem_getLast? hy)

/-! ## Linking and unlinking -/

namespace Listed

theorem bin_unique (h : heap.Listed ground chains) {bin' : Fin binCount} (hx : x ∈ chains bin)
    (hx' : x ∈ chains bin') : bin = bin' :=
  Option.some.inj ((h.classed bin x hx).symm.trans (h.classed bin' x hx'))

theorem ground_head (h : heap.Listed ground chains) (bin : Fin binCount) :
    ∀ y ∈ (chains bin).head?, ground y :=
  fun y hy => h.members bin y (List.mem_of_mem_head? hy)

/-- A heap has these lists or no others. -/
theorem chains_eq (h : heap.Listed ground chains) {ground' : Nat → Prop} {chains' : Chains}
    (h' : heap.Listed ground' chains') : chains' = chains :=
  funext fun bin => (h.linked bin).unique (h'.linked bin) ((h'.head bin).symm.trans (h.head bin))

theorem bins_eq (h : heap.Listed ground chains) {ground' : Nat → Prop}
    (h' : heap'.Listed ground' chains) : heap'.bins = heap.bins := by
  refine Vector.ext fun index hindex => ?_
  exact (h'.head ⟨index, hindex⟩).trans (h.head ⟨index, hindex⟩).symm

theorem occupied_eq (h : heap.Listed ground chains) {ground' : Nat → Prop}
    (h' : heap'.Listed ground' chains) : heap'.occupied = heap.occupied := by
  refine BitVec.eq_of_getLsbD_eq fun index hindex => ?_
  exact (h'.flagged ⟨index, hindex⟩).trans (h.flagged ⟨index, hindex⟩).symm

private theorem update (h : heap.Listed ground chains) {chain : List Nat}
    (hsize : heap'.arena.size = heap.arena.size)
    (hwords : ∀ x, ground x → heap'.wordOf .size x = heap.wordOf .size x)
    (hmem : ∀ x ∈ chain, ground x ∧ binOf? (heap.wordOf .size x) = some bin)
    (hnodup : chain.Nodup)
    (hchain : Linked (heap'.linkOf .nextFree) (heap'.linkOf .prevFree) none chain none)
    (hothers : ∀ other, other ≠ bin → ∀ x ∈ chains other,
      heap'.linkOf .nextFree x = heap.linkOf .nextFree x ∧
        heap'.linkOf .prevFree x = heap.linkOf .prevFree x)
    (hhead : ∀ other, heap'.bins.get other =
      if other = bin then chain.head? else heap.bins.get other)
    (hflag : ∀ other, heap'.occupied.isFlagged other =
      if other = bin then chain.head?.isSome else heap.occupied.isFlagged other) :
    heap'.Listed ground (Function.update chains bin chain) where
  scattered := h.scattered.congr hsize
  members := by
    refine (Function.forall_update_iff chains fun _ list => ∀ x ∈ list, ground x).mpr ⟨?_, ?_⟩
    · exact fun x hx => (hmem x hx).1
    · exact fun other _ => h.members other
  classed := by
    refine (Function.forall_update_iff chains fun other list =>
      ∀ x ∈ list, binOf? (heap'.wordOf .size x) = some other).mpr ⟨?_, ?_⟩
    · intro x hx
      rw [hwords x (hmem x hx).1, (hmem x hx).2]
    · intro other _ x hx
      rw [hwords x (h.members other x hx), h.classed other x hx]
  distinct := (Function.forall_update_iff chains fun _ list => list.Nodup).mpr
    ⟨hnodup, fun other _ => h.distinct other⟩
  linked := by
    refine (Function.forall_update_iff chains fun _ list =>
      Linked (heap'.linkOf .nextFree) (heap'.linkOf .prevFree) none list none).mpr ⟨hchain, ?_⟩
    intro other hne
    exact (h.linked other).congr (fun x hx => (hothers other hne x hx).1)
      fun x hx => (hothers other hne x hx).2
  head := by
    refine (Function.forall_update_iff chains fun other list =>
      heap'.bins.get other = list.head?).mpr ⟨?_, ?_⟩
    · rw [hhead, if_pos rfl]
    · intro other hne
      rw [hhead, if_neg hne, h.head]
  flagged := by
    refine (Function.forall_update_iff chains fun other list =>
      heap'.occupied.isFlagged other = list.head?.isSome).mpr ⟨?_, ?_⟩
    · rw [hflag, if_pos rfl]
    · intro other hne
      rw [hflag, if_neg hne, h.flagged]

theorem unlink_eq (h : heap.Listed ground chains) (hchain : chains bin = left ++ x :: right) :
    heap.unlink x = .ok ((heap.splice left.getLast? right.head?).withBins
      (if left.getLast? = none then heap.bins.set bin right.head? bin.isLt else heap.bins)
      (if left.getLast? = none ∧ right.head? = none then heap.occupied.unflag bin
        else heap.occupied)) := by
  have hs := h.scattered
  have hmem : x ∈ chains bin := hchain ▸ List.mem_append_right left List.mem_cons_self
  have hx := h.members bin x hmem
  have hafter : ∀ y ∈ right.head?, ground y := fun y hy =>
    h.members bin y (mem_after hchain y hy)
  have hbefore : ∀ y ∈ left.getLast?, ground y := fun y hy =>
    h.members bin y (mem_before hchain y hy)
  rcases Linked.append_iff.mp (hchain ▸ h.linked bin) with ⟨-, hback, hforth, -⟩
  rw [Option.or_none] at hback hforth
  have hbin := hs.binOf_eq hx (h.classed bin x hmem)
  simp only [Heap.unlink, hbin, hs.getLink_eq hx, hback, hforth, bind, Except.bind,
    hs.setLinkOf_eq hafter .prevFree (hs.storable hbefore)]
  cases hlast : left.getLast? with
  | some before =>
      refine (hs.putLink.setLink_eq (hbefore before hlast) .nextFree (hs.storable hafter)).trans ?_
      exact congrArg Except.ok (withBins_eq_self (by simp) (by simp)).symm
  | none =>
      cases right.head? <;> simp [splice, putLink, withBins, setHead, pure, Except.pure]

/-- Unlinking drops a fragment from its list, wherever it stands. -/
theorem unlink (h : heap.Listed ground chains) (hchain : chains bin = left ++ x :: right) :
    ∃ heap', heap.unlink x = .ok heap' ∧
      heap'.Listed ground (Function.update chains bin (left ++ right)) ∧
      heap.Spares heap' ground
        (linkWords right.head? .prevFree ++ linkWords left.getLast? .nextFree) := by
  have hs := h.scattered
  have hrest : ∀ y ∈ left ++ right, y ∈ chains bin := fun y hy =>
    hchain ▸ List.mem_append.mpr ((List.mem_append.mp hy).imp_right (List.mem_cons_of_mem x))
  have hafter : ∀ y ∈ right.head?, ground y := fun y hy =>
    h.members bin y (mem_after hchain y hy)
  have hbefore : ∀ y ∈ left.getLast?, ground y := fun y hy =>
    h.members bin y (mem_before hchain y hy)
  have hspares := hs.spares_splice hbefore hafter
  refine ⟨_, h.unlink_eq hchain, ?_, hspares.withBins⟩
  refine h.update ?_ ?_ ?_ ?_ ?_ ?_ ?_ ?_
  · rw [arena_withBins, hspares.size]
  · intro y hy
    rw [wordOf_withBins, hspares.wordOf_eq hs hy (by decide)]
  · exact fun y hy => ⟨h.members bin y (hrest y hy), h.classed bin y (hrest y hy)⟩
  · exact (hchain ▸ h.distinct bin).sublist (by simp)
  · refine ((hchain ▸ h.linked bin).remove (hchain ▸ h.distinct bin)).congr (fun y hy => ?_)
      fun y hy => ?_
    · rw [linkOf_withBins, hs.nextFree_splice hbefore hafter (h.members bin y (hrest y hy))]
    · rw [linkOf_withBins, hs.prevFree_splice hbefore hafter (h.members bin y (hrest y hy))]
  · -- the neighbours are in no other list, as a fragment has one class
    intro other hne y hy
    have hy' := h.members other y hy
    rw [linkOf_withBins, linkOf_withBins, hs.nextFree_splice hbefore hafter hy',
      hs.prevFree_splice hbefore hafter hy']
    exact ⟨setLinkAt_of_notMem fun hin => hne (h.bin_unique hy (mem_before hchain y hin)),
      setLinkAt_of_notMem fun hin => hne (h.bin_unique hy (mem_after hchain y hin))⟩
  · -- the head of the bin changes only if the fragment was the first of its list
    intro other
    have hfirst := hchain ▸ h.head bin
    rw [bins_withBins]
    cases left with
    | nil => simp [get_bins_set]
    | cons first rest =>
        by_cases hother : other = bin <;> simp_all
  · -- and its flag only if no other fragment is left in it
    intro other
    have hfirst := hchain ▸ h.flagged bin
    rw [occupied_withBins]
    cases left with
    | nil =>
        cases right <;> by_cases hother : other = bin <;> simp_all [BinMask.isFlagged_unflag]
    | cons first rest =>
        by_cases hother : other = bin <;> simp_all

theorem link_eq (h : heap.Listed ground chains) (hx : ground x)
    (hclass : binOf? (heap.wordOf .size x) = some bin) :
    heap.link x = .ok ((heap.putFront x (chains bin).head?).withBins
      (heap.bins.set bin (some x) bin.isLt) (heap.occupied.flag bin)) := by
  have hs := h.scattered
  have hself := ground_of_mem_some hx
  have hhead := h.ground_head bin
  have hforth := hs.setLink_eq hx .nextFree (hs.storable hhead)
  have hback : ∀ middle : Heap, middle.Scattered ground →
      middle.setLink x .prevFree none = .ok (middle.putLink (some x) .prevFree none) :=
    fun _ hmiddle => hmiddle.setLink_eq hx .prevFree storable_none
  have hfirst : ∀ middle : Heap, middle.Scattered ground →
      middle.setLinkOf (chains bin).head? .prevFree (some x) =
        .ok (middle.putLink (chains bin).head? .prevFree (some x)) :=
    fun _ hmiddle => hmiddle.setLinkOf_eq hhead .prevFree (hs.storable hself)
  simp only [Heap.link, hs.binOf_eq hx hclass, h.head, bind, Except.bind, hforth,
    hback _ hs.putLink, hfirst _ hs.putLink.putLink]
  simp [Heap.withBins, putFront, pure, Except.pure]

/-- Linking puts a fragment in front of the list of its class. -/
theorem link (h : heap.Listed ground chains) (hx : ground x)
    (hclass : binOf? (heap.wordOf .size x) = some bin) (hfresh : x ∉ chains bin) :
    ∃ heap', heap.link x = .ok heap' ∧
      heap'.Listed ground (Function.update chains bin (x :: chains bin)) ∧
      heap.Spares heap' ground
        ([(x, .nextFree), (x, .prevFree)] ++ linkWords (chains bin).head? .prevFree) := by
  have hs := h.scattered
  have hhead := h.ground_head bin
  have hspares := hs.spares_putFront hx hhead
  have hnodup : (x :: chains bin).Nodup := List.nodup_cons.mpr ⟨hfresh, h.distinct bin⟩
  have hmem : ∀ y ∈ x :: chains bin, ground y ∧ binOf? (heap.wordOf .size y) = some bin := by
    intro y hy
    rcases List.mem_cons.mp hy with rfl | hy
    · exact ⟨hx, hclass⟩
    · exact ⟨h.members bin y hy, h.classed bin y hy⟩
  have hother : ∀ other, other ≠ bin → ∀ y ∈ chains other, y ≠ x := by
    intro other hne y hy heq
    subst heq
    exact hne (Option.some.inj ((h.classed other y hy).symm.trans hclass))
  refine ⟨_, h.link_eq hx hclass, ?_, hspares.withBins⟩
  refine h.update ?_ ?_ hmem hnodup ?_ ?_ ?_ ?_
  · rw [arena_withBins, hspares.size]
  · intro y hy
    rw [wordOf_withBins, hspares.wordOf_eq hs hy (by decide)]
  · have hlinked : Linked (heap.linkOf .nextFree) (heap.linkOf .prevFree) none
        ([] ++ chains bin) none := h.linked bin
    refine (hlinked.insert hnodup).congr (fun y hy => ?_) fun y hy => ?_
    · rw [linkOf_withBins, hs.nextFree_putFront hx hhead (hmem y hy).1]
      rfl
    · rw [linkOf_withBins, hs.prevFree_putFront hx hhead (hmem y hy).1]
      rfl
  · intro other hne y hy
    have hy' := h.members other y hy
    rw [linkOf_withBins, linkOf_withBins, hs.nextFree_putFront hx hhead hy',
      hs.prevFree_putFront hx hhead hy', Function.update_of_ne (hother other hne y hy),
      setLinkAt_of_notMem fun hin => hne (h.bin_unique hy (List.mem_of_mem_head? hin)),
      Function.update_of_ne (hother other hne y hy)]
    exact ⟨rfl, rfl⟩
  · intro other
    rw [bins_withBins, get_bins_set, List.head?_cons]
  · intro other
    rw [occupied_withBins, BinMask.isFlagged_flag]
    by_cases hbin : other = bin <;> simp [hbin]

end Listed

end Heap

end CanNode
