import CanNode.Heap.Basic
import CanNode.Proofs.Links

/-!
# The words of fragments

Fragments start at multiples of the smallest size, so the words of two fragments never overlap
and a header can be read as a table: `wordAt` by field and fragment.  Storing a word changes one
entry of the table (`wordAt_put_self`, `wordAt_put_of_ne`), and the bytes of the arena stay what
they are in every region that the word keeps clear of (`agreesOn_put`).
-/

namespace CanNode

theorem Field.offset_add_four_le (field : Field) : field.offset + 4 ≤ minimumFragment := by
  cases field <;> decide

theorem Field.apart_of_ne {field other : Field} (hne : other ≠ field) :
    other.offset + 4 ≤ field.offset ∨ field.offset + 4 ≤ other.offset := by
  cases field <;> cases other <;> first | exact absurd rfl hne | decide

def Field.InHeader (field : Field) : Prop :=
  field.offset < headerSize

instance (field : Field) : Decidable field.InHeader :=
  inferInstanceAs (Decidable (field.offset < headerSize))

theorem Arena.word_congr {arena arena' : Arena} {address : Nat}
    (h : ∀ other, address ≤ other → other < address + 4 → arena'.byte other = arena.byte other) :
    arena'.word address = arena.word address := by
  have hbytes : ∀ index ∈ List.range 4,
      arena'.byte (address + index) = arena.byte (address + index) := by
    intro index hindex
    have hlt := List.mem_range.mp hindex
    exact h _ (Nat.le_add_right ..) (by omega)
  rw [Arena.word, Arena.slice, List.map_congr_left hbytes, Arena.word, Arena.slice]

namespace Heap

theorem nextFree_notInHeader : ¬ Field.nextFree.InHeader := by decide

theorem prevFree_notInHeader : ¬ Field.prevFree.InHeader := by decide

/-- A fragment may start at the address: it is a multiple of the smallest size, and the arena
reaches far enough behind it. -/
def Addressable (heap : Heap) (fragment : Nat) : Prop :=
  minimumFragment ∣ fragment ∧ fragment + minimumFragment ≤ heap.arena.size

/-- The link leads to an address where a fragment may start, if it leads anywhere. -/
def LinkFits (heap : Heap) (link : Option Nat) : Prop :=
  ∀ fragment ∈ link, heap.Addressable fragment

/-- A word of a fragment, by field.  Where no fragment may start there is no word, and the
answer is zero. -/
def wordAt (heap : Heap) (field : Field) (fragment : Nat) : Nat :=
  if minimumFragment ∣ fragment then heap.arena.word (fragment + field.offset) else 0

def linkAt (heap : Heap) (field : Field) (fragment : Nat) : Option Nat :=
  wordLink (heap.wordAt field fragment)

def put (heap : Heap) (fragment : Nat) (field : Field) (value : Nat) : Heap :=
  { heap with arena := heap.arena.setWord (fragment + field.offset) value }

def putLink (heap : Heap) (target : Option Nat) (field : Field) (link : Option Nat) : Heap :=
  match target with
  | none => heap
  | some fragment => heap.put fragment field (linkWord link)

/-- A link that a word can store: it is missing or leads to an address. -/
def Storable (link : Option Nat) : Prop :=
  ∀ fragment ∈ link, fragment < noLink

variable {heap : Heap} {fragment value : Nat} {field other : Field} {target link : Option Nat}

theorem storable_none : Storable none := by
  intro fragment hmem
  cases hmem

theorem storable_some (h : fragment < noLink) : Storable (some fragment) := by
  intro other hmem
  cases hmem
  exact h

theorem Addressable.lt_noLink (h : heap.Addressable fragment) (hsize : heap.arena.size ≤ noLink) :
    fragment < noLink := by
  have hreach := h.2
  simp only [minimumFragment] at hreach
  omega

theorem addressable_congr {heap' : Heap} (h : heap'.arena.size = heap.arena.size) :
    heap'.Addressable fragment ↔ heap.Addressable fragment := by
  rw [Addressable, Addressable, h]

theorem linkWord_le (h : Storable link) : linkWord link ≤ noLink := by
  cases link with
  | none => exact Nat.le_refl noLink
  | some fragment => exact Nat.le_of_lt (h fragment rfl)

theorem arena_put : (heap.put fragment field value).arena =
    heap.arena.setWord (fragment + field.offset) value := by
  simp only [put]

@[simp] theorem size_put : (heap.put fragment field value).arena.size = heap.arena.size := by
  rw [arena_put, Arena.size_setWord]

@[simp] theorem bins_put : (heap.put fragment field value).bins = heap.bins := by
  simp only [put]

@[simp] theorem occupied_put : (heap.put fragment field value).occupied = heap.occupied := by
  simp only [put]

@[simp] theorem usage_put : (heap.put fragment field value).usage = heap.usage := by
  simp only [put]

@[simp] theorem addressable_put {x : Nat} :
    (heap.put fragment field value).Addressable x ↔ heap.Addressable x :=
  addressable_congr size_put

@[simp] theorem size_putLink : (heap.putLink target field link).arena.size = heap.arena.size := by
  cases target <;> simp [putLink]

@[simp] theorem bins_putLink : (heap.putLink target field link).bins = heap.bins := by
  cases target <;> simp [putLink]

@[simp] theorem occupied_putLink :
    (heap.putLink target field link).occupied = heap.occupied := by
  cases target <;> simp [putLink]

@[simp] theorem usage_putLink : (heap.putLink target field link).usage = heap.usage := by
  cases target <;> simp [putLink]

@[simp] theorem addressable_putLink {x : Nat} :
    (heap.putLink target field link).Addressable x ↔ heap.Addressable x :=
  addressable_congr size_putLink

theorem linkFits_congr {heap' : Heap} (h : heap'.arena.size = heap.arena.size) :
    heap'.LinkFits link ↔ heap.LinkFits link :=
  forall₂_congr fun _ _ => addressable_congr h

@[simp] theorem linkFits_some {x : Nat} : heap.LinkFits (some x) ↔ heap.Addressable x := by
  simp [LinkFits]

@[simp] theorem linkFits_put {link' : Option Nat} :
    (heap.put fragment field value).LinkFits link' ↔ heap.LinkFits link' :=
  linkFits_congr size_put

@[simp] theorem linkFits_putLink {link' : Option Nat} :
    (heap.putLink target field link).LinkFits link' ↔ heap.LinkFits link' :=
  linkFits_congr size_putLink

theorem LinkFits.storable (h : heap.LinkFits link) (hsize : heap.arena.size ≤ noLink) :
    Storable link :=
  fun x hx => (h x hx).lt_noLink hsize

/-! ## Accesses that succeed -/

theorem Addressable.fits (h : heap.Addressable fragment) (field : Field) :
    fragment + field.offset + 4 ≤ heap.arena.size := by
  have hfield := field.offset_add_four_le
  have hreach := h.2
  omega

theorem get_eq (h : heap.Addressable fragment) (field : Field) :
    heap.get fragment field = .ok (heap.wordAt field fragment) := by
  rw [get_of_fits (h.fits field), wordAt, if_pos h.1]

theorem getLink_eq (h : heap.Addressable fragment) (field : Field) :
    heap.getLink fragment field = .ok (heap.linkAt field fragment) := by
  rw [getLink, get_eq h field]
  rfl

theorem set_eq (h : heap.Addressable fragment) (field : Field) (hvalue : value ≤ noLink) :
    heap.set fragment field value = .ok (heap.put fragment field value) :=
  set_of_fits hvalue (h.fits field)

theorem setLink_eq (h : heap.Addressable fragment) (field : Field) (hlink : Storable link) :
    heap.setLink fragment field link = .ok (heap.putLink (some fragment) field link) :=
  set_eq h field (linkWord_le hlink)

theorem setLinkOf_eq (h : heap.LinkFits target) (field : Field)
    (hlink : Storable link) :
    heap.setLinkOf target field link = .ok (heap.putLink target field link) := by
  cases target with
  | none => rfl
  | some x => exact setLink_eq (h x rfl) field hlink

/-! ## Words after a store -/

theorem words_apart {x y : Nat} (hx : minimumFragment ∣ x) (hy : minimumFragment ∣ y)
    (hne : x ≠ y ∨ other ≠ field) :
    x + other.offset + 4 ≤ y + field.offset ∨ y + field.offset + 4 ≤ x + other.offset := by
  have hfield := field.offset_add_four_le
  have hother := other.offset_add_four_le
  by_cases hxy : x = y
  · have happart := Field.apart_of_ne (hne.resolve_left fun h => h hxy)
    omega
  · simp only [minimumFragment] at *
    omega

@[simp] theorem wordAt_put_of_ne (h : heap.Addressable fragment) (hne : other ≠ field) :
    (heap.put fragment field value).wordAt other = heap.wordAt other := by
  funext x
  unfold wordAt
  by_cases hx : minimumFragment ∣ x
  · rw [if_pos hx, if_pos hx, arena_put, Arena.word_setWord_of_disjoint _ _ _ _ (h.fits field)
      (words_apart hx h.1 (.inr hne))]
  · rw [if_neg hx, if_neg hx]

@[simp] theorem wordAt_put_self (h : heap.Addressable fragment) (hvalue : value ≤ noLink) :
    (heap.put fragment field value).wordAt field =
      Function.update (heap.wordAt field) fragment value := by
  funext x
  by_cases heq : x = fragment
  · subst heq
    have hmod : value % wordCount = value := by
      simp only [noLink] at hvalue
      exact Nat.mod_eq_of_lt (Nat.lt_of_le_of_lt hvalue (by decide))
    rw [Function.update_self, wordAt, if_pos h.1, arena_put,
      Arena.word_setWord _ _ _ (h.fits field), hmod]
  · rw [Function.update_of_ne heq]
    unfold wordAt
    by_cases hx : minimumFragment ∣ x
    · rw [if_pos hx, if_pos hx, arena_put, Arena.word_setWord_of_disjoint _ _ _ _
        (h.fits field) (words_apart hx h.1 (.inl heq))]
    · rw [if_neg hx, if_neg hx]

@[simp] theorem linkAt_put_of_ne (h : heap.Addressable fragment) (hne : other ≠ field) :
    (heap.put fragment field value).linkAt other = heap.linkAt other := by
  funext x
  rw [linkAt, linkAt, wordAt_put_of_ne h hne]

@[simp] theorem wordAt_putLink_of_ne (h : heap.LinkFits target) (hne : other ≠ field) :
    (heap.putLink target field link).wordAt other = heap.wordAt other := by
  cases target with
  | none => rfl
  | some x => exact wordAt_put_of_ne (h x rfl) hne

@[simp] theorem linkAt_putLink_of_ne (h : heap.LinkFits target) (hne : other ≠ field) :
    (heap.putLink target field link).linkAt other = heap.linkAt other := by
  funext x
  rw [linkAt, linkAt, wordAt_putLink_of_ne h hne]

@[simp] theorem linkAt_putLink_self (h : heap.LinkFits target) (hlink : Storable link) :
    (heap.putLink target field link).linkAt field = setLinkAt (heap.linkAt field) target link := by
  cases target with
  | none => rfl
  | some x =>
      funext y
      have hword : (heap.put x field (linkWord link)).wordAt field =
          Function.update (heap.wordAt field) x (linkWord link) :=
        wordAt_put_self (h x rfl) (linkWord_le hlink)
      rw [putLink, linkAt, hword, setLinkAt]
      by_cases heq : y = x
      · subst heq
        rw [Function.update_self, Function.update_self]
        refine wordLink_linkWord fun hmem => ?_
        exact Nat.lt_irrefl noLink (hlink noLink hmem)
      · rw [Function.update_of_ne heq, Function.update_of_ne heq]
        rfl

/-! ## Bytes that a store leaves alone -/

/-- Two heaps hold the same bytes in a region of their arenas. -/
def AgreesOn (region : Nat → Prop) (heap heap' : Heap) : Prop :=
  ∀ address, region address → heap'.arena.byte address = heap.arena.byte address

/-- A region that a word of a fragment does not reach into. -/
def ClearOf (region : Nat → Prop) (fragment : Nat) (field : Field) : Prop :=
  ∀ address, region address →
    address < fragment + field.offset ∨ fragment + field.offset + 4 ≤ address

variable {region : Nat → Prop}

theorem AgreesOn.refl (region : Nat → Prop) (heap : Heap) : AgreesOn region heap heap :=
  fun _ _ => rfl

theorem AgreesOn.trans {heap₁ heap₂ heap₃ : Heap} (h₁ : AgreesOn region heap₁ heap₂)
    (h₂ : AgreesOn region heap₂ heap₃) : AgreesOn region heap₁ heap₃ :=
  fun address hin => (h₂ address hin).trans (h₁ address hin)

theorem byte_put {address : Nat} (hfit : fragment + field.offset + 4 ≤ heap.arena.size)
    (hout : address < fragment + field.offset ∨ fragment + field.offset + 4 ≤ address) :
    (heap.put fragment field value).arena.byte address = heap.arena.byte address := by
  have hfit' : fragment + field.offset + (Bytes.ofNat 4 value).length ≤ heap.arena.size := by
    rwa [Bytes.length_ofNat]
  rw [arena_put, Arena.setWord, Arena.byte_overlay _ _ _ _ hfit', dif_neg]
  rw [Bytes.length_ofNat]
  omega

theorem agreesOn_put (h : heap.Addressable fragment) (hclear : ClearOf region fragment field)
    (value : Nat) : AgreesOn region heap (heap.put fragment field value) :=
  fun address hin => byte_put (h.fits field) (hclear address hin)

theorem agreesOn_putLink (h : heap.LinkFits target)
    (hclear : ∀ x ∈ target, ClearOf region x field) (link : Option Nat) :
    AgreesOn region heap (heap.putLink target field link) := by
  cases target with
  | none => exact AgreesOn.refl region heap
  | some x => exact agreesOn_put (h x rfl) (hclear x rfl) _

theorem AgreesOn.put {heap' : Heap} (hagrees : AgreesOn region heap heap')
    (h : heap'.Addressable fragment) (hclear : ClearOf region fragment field) (value : Nat) :
    AgreesOn region heap (heap'.put fragment field value) :=
  hagrees.trans (agreesOn_put h hclear value)

theorem AgreesOn.putLink {heap' : Heap} (hagrees : AgreesOn region heap heap')
    (h : heap'.LinkFits target) (hclear : ∀ x ∈ target, ClearOf region x field)
    (link : Option Nat) : AgreesOn region heap (heap'.putLink target field link) :=
  hagrees.trans (agreesOn_putLink h hclear link)

theorem AgreesOn.wordAt_eq {heap' : Heap} (h : AgreesOn region heap heap')
    (hin : ∀ address, fragment + field.offset ≤ address →
      address < fragment + field.offset + 4 → region address) :
    heap'.wordAt field fragment = heap.wordAt field fragment := by
  rw [wordAt, wordAt, Arena.word_congr fun address hle hlt => h address (hin address hle hlt)]

end Heap

end CanNode
