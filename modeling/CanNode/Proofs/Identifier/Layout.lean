import CanNode.Identifier.Fields
import Mathlib.Algebra.Group.Nat.Defs

/-!
# The layout of identifiers

Every accessor reads its own bits of an identifier, and fields are encoded to a word in which each
has bits of its own: `Fields.encode_eq_ok_iff` says so, with `Fields.word` as the shifted fields put
together bit by bit.  Since no two of them share a bit, `word_of_message` and `word_of_service` can
give the word as a sum.
-/

namespace CanNode

namespace Identifier

/-! ## Bits -/

def bit (id : Identifier) (index : Nat) : Bool :=
  id.toNat.testBit index

/-- The bits that belong to no field are as they should be: bit 23 is clear, and in a message bits
22 and 21 are set and bit 7 is clear. -/
structure Conforms (id : Identifier) : Prop where
  gap : id.bit 23 = false
  message : id.isService = false → id.bit 22 = true ∧ id.bit 21 = true ∧ id.bit 7 = false

theorem bits_eq (id : Identifier) (low width : Nat) :
    id.bits low width = id.toNat / 2 ^ low % 2 ^ width := by
  rw [bits, Nat.shiftRight_eq_div_pow, Nat.one_shiftLeft]

theorem bit_eq_true_iff {id : Identifier} {index : Nat} :
    id.bit index = true ↔ id.toNat / 2 ^ index % 2 = 1 := by
  rw [bit, Nat.testBit_eq_decide_div_mod_eq, decide_eq_true_iff]

theorem bit_eq_false_iff {id : Identifier} {index : Nat} :
    id.bit index = false ↔ id.toNat / 2 ^ index % 2 = 0 := by
  rw [bit, Nat.testBit_eq_decide_div_mod_eq, decide_eq_false_iff_not]
  omega

/-! ## Accessors -/

section Accessors

variable {id : Identifier}

theorem isExtended_iff : id.isExtended = true ↔ id.toNat < 2 ^ 29 :=
  decide_eq_true_iff

theorem isService_iff : id.isService = true ↔ id.toNat / 2 ^ 25 % 2 = 1 := by
  rw [isService, bits_eq, beq_iff_eq, Nat.pow_one]

theorem isService_eq_false_iff : id.isService = false ↔ id.toNat / 2 ^ 25 % 2 = 0 := by
  rw [← Bool.not_eq_true, isService_iff]
  omega

theorem isAnonymous_iff : id.isAnonymous = true ↔
    id.toNat / 2 ^ 25 % 2 = 0 ∧ id.toNat / 2 ^ 24 % 2 = 1 := by
  rw [isAnonymous, Bool.and_eq_true, Bool.not_eq_true', isService_eq_false_iff, beq_iff_eq, bits_eq,
    Nat.pow_one]

theorem kind_eq_message_iff : id.kind = .message ↔ id.isService = false := by
  unfold kind
  cases id.isService with
  | false => simp
  | true =>
      simp only [Bool.not_true, Bool.false_eq_true, if_false]
      split <;> simp

theorem kind_of_isService (h : id.isService = true) :
    id.kind = if id.toNat / 2 ^ 24 % 2 = 1 then .request else .response := by
  simp [kind, h, bits_eq]

theorem level_priority : id.priority.level = id.toNat / 2 ^ 26 % 8 := by
  rw [priority, Priority.level_ofLevel, bits_eq]
  exact Nat.mod_mod _ _

theorem toNat_port_of_message (h : id.isService = false) :
    id.port.toNat = id.toNat / 2 ^ 8 % 2 ^ 13 := by
  rw [port, h, if_neg Bool.false_ne_true, PortId.toNat_ofNat, bits_eq]
  omega

theorem toNat_port_of_service (h : id.isService = true) :
    id.port.toNat = id.toNat / 2 ^ 14 % 2 ^ 9 := by
  rw [port, h, if_pos rfl, PortId.toNat_ofNat, bits_eq]
  omega

theorem source_of_not_anonymous (h : id.isAnonymous = false) :
    ∃ node : NodeId, id.source = some node ∧ node.toNat = id.toNat % 128 := by
  refine ⟨_, by rw [source, h, if_neg Bool.false_ne_true], ?_⟩
  rw [NodeId.toNat_truncate, bits_eq]
  omega

theorem destination_of_service (h : id.isService = true) :
    ∃ node : NodeId, id.destination = some node ∧ node.toNat = id.toNat / 2 ^ 7 % 128 := by
  refine ⟨_, by rw [destination, h, if_pos rfl], ?_⟩
  rw [NodeId.toNat_truncate, bits_eq]
  omega

end Accessors

/-! ## Words -/

namespace Fields

/-- What bit 24 is: set for an anonymous message and for a request. -/
def mark (fields : Fields) : Nat :=
  match fields.kind with
  | .message => if fields.source = none then 1 else 0
  | .request => 1
  | .response => 0

/-- What the lowest seven bits are: the source, or what stands in its place. -/
def sender (fields : Fields) : Nat :=
  match fields.source with
  | some node => node.toNat
  | none => fields.pseudoId

def receiver (fields : Fields) : Nat :=
  match fields.destination with
  | some node => node.toNat
  | none => 0

/-- The fields, each shifted to its place. -/
def places (fields : Fields) : List Nat :=
  match fields.kind with
  | .message =>
      [fields.priority.level <<< 26, fields.mark <<< 24, 3 <<< 21, fields.port.toNat <<< 8,
        fields.sender]
  | _ =>
      [fields.priority.level <<< 26, 1 <<< 25, fields.mark <<< 24, fields.port.toNat <<< 14,
        fields.receiver <<< 7, fields.sender]

def word (fields : Fields) : Nat :=
  fields.places.foldr (· ||| ·) 0

variable {fields : Fields}

theorem mark_lt (fields : Fields) : fields.mark < 2 := by
  unfold mark
  split
  · split <;> decide
  · decide
  · decide

theorem sender_lt (fields : Fields) : fields.sender < 128 := by
  unfold sender
  split
  · exact NodeId.toNat_lt _
  · exact fields.pseudoId.isLt

theorem receiver_lt (fields : Fields) : fields.receiver < 128 := by
  unfold receiver
  split
  · exact NodeId.toNat_lt _
  · decide

theorem port_lt_of_fits (hfits : fields.port.fits fields.kind = true) :
    (fields.kind = .message → fields.port.toNat < 2 ^ 13) ∧
      (fields.kind ≠ .message → fields.port.toNat < 2 ^ 9) := by
  rw [PortId.fits_iff] at hfits
  cases hkind : fields.kind with
  | message =>
      rw [hkind] at hfits
      exact ⟨fun _ => Nat.lt_succ_of_le hfits, fun h => absurd rfl h⟩
  | request | response =>
      rw [hkind] at hfits
      exact ⟨fun h => by (cases h), fun _ => Nat.lt_succ_of_le hfits⟩

/-- A field above all others can be added instead. -/
theorem shiftLeft_or {field rest low : Nat} (h : rest < 2 ^ low) :
    field <<< low ||| rest = field * 2 ^ low + rest := by
  rw [← Nat.shiftLeft_add_eq_or_of_lt h, Nat.shiftLeft_eq]

theorem word_of_message (hkind : fields.kind = .message)
    (hfits : fields.port.fits fields.kind = true) :
    fields.word = fields.priority.level * 2 ^ 26 + (fields.mark * 2 ^ 24 + (3 * 2 ^ 21 +
      (fields.port.toNat * 2 ^ 8 + fields.sender))) := by
  have hport := (port_lt_of_fits hfits).1 hkind
  have hmark := fields.mark_lt
  have hsender := fields.sender_lt
  rw [word, places, hkind]
  simp only [List.foldr_cons, List.foldr_nil, Nat.or_zero]
  rw [@shiftLeft_or fields.port.toNat _ _ (by omega), @shiftLeft_or 3 _ _ (by omega),
    @shiftLeft_or fields.mark _ _ (by omega), @shiftLeft_or fields.priority.level _ _ (by omega)]

theorem word_of_service (hkind : fields.kind ≠ .message)
    (hfits : fields.port.fits fields.kind = true) :
    fields.word = fields.priority.level * 2 ^ 26 + (1 * 2 ^ 25 + (fields.mark * 2 ^ 24 +
      (fields.port.toNat * 2 ^ 14 + (fields.receiver * 2 ^ 7 + fields.sender)))) := by
  have hport := (port_lt_of_fits hfits).2 hkind
  have hmark := fields.mark_lt
  have hsender := fields.sender_lt
  have hreceiver := fields.receiver_lt
  unfold word places
  split
  · next h => exact absurd h hkind
  · simp only [List.foldr_cons, List.foldr_nil, Nat.or_zero]
    rw [@shiftLeft_or fields.receiver _ _ (by omega),
      @shiftLeft_or fields.port.toNat _ _ (by omega),
      @shiftLeft_or fields.mark _ _ (by omega), @shiftLeft_or 1 _ _ (by omega),
      @shiftLeft_or fields.priority.level _ _ (by omega)]

theorem word_lt (hfits : fields.port.fits fields.kind = true) : fields.word < 2 ^ 29 := by
  obtain ⟨hsubject, hservice⟩ := port_lt_of_fits hfits
  have hlevel := fields.priority.level_lt
  have hmark := fields.mark_lt
  have hsender := fields.sender_lt
  have hreceiver := fields.receiver_lt
  by_cases hkind : fields.kind = .message
  · have hport := hsubject hkind
    rw [word_of_message hkind hfits]
    omega
  · have hport := hservice hkind
    rw [word_of_service hkind hfits]
    omega

theorem messageWord_eq (hkind : fields.kind = .message)
    (hfits : fields.port.fits fields.kind = true) : fields.messageWord = fields.word := by
  rw [word_of_message hkind hfits]
  unfold messageWord mark sender
  rw [hkind]
  cases fields.source with
  | some node => simp [Nat.shiftLeft_eq, Nat.add_assoc]
  | none =>
      simp only [Nat.shiftLeft_eq, if_true]
      omega

theorem serviceWord_eq {source destination : NodeId} (hkind : fields.kind ≠ .message)
    (hfits : fields.port.fits fields.kind = true) (hsource : fields.source = some source)
    (hdestination : fields.destination = some destination) :
    fields.serviceWord source destination = fields.word := by
  rw [word_of_service hkind hfits]
  unfold serviceWord mark sender receiver
  rw [hsource, hdestination]
  cases hother : fields.kind with
  | message => exact absurd hother hkind
  | request | response =>
      simp only [Nat.shiftLeft_eq, if_true, if_false, reduceCtorEq]
      omega

/-- Exactly these fields have an identifier. -/
def Complete (fields : Fields) : Prop :=
  fields.port.fits fields.kind = true ∧
    (fields.kind = .message ∧ fields.destination = none ∨
      fields.kind ≠ .message ∧ fields.source ≠ none ∧ fields.destination ≠ none)

/-- What an error says about the fields.  The port is looked at first, and the source of a service
before its destination. -/
def Violates (fields : Fields) : EncodeError → Prop
  | .portOutOfRange port => fields.port = port ∧ fields.port.fits fields.kind = false
  | .destinationOnMessage =>
      fields.port.fits fields.kind = true ∧ fields.kind = .message ∧ fields.destination ≠ none
  | .anonymousService =>
      fields.port.fits fields.kind = true ∧ fields.kind ≠ .message ∧ fields.source = none
  | .missingDestination =>
      fields.port.fits fields.kind = true ∧ fields.kind ≠ .message ∧ fields.source ≠ none ∧
        fields.destination = none

theorem encode_of_complete (h : fields.Complete) :
    fields.encode = .ok (Identifier.ofNat fields.word) := by
  obtain ⟨hfits, ⟨hkind, hdestination⟩ | ⟨hkind, hsource, hdestination⟩⟩ := h
  · rw [← messageWord_eq hkind hfits]
    simp [encode, hkind ▸ hfits, hkind, hdestination]
  · obtain ⟨source, hsource⟩ := Option.ne_none_iff_exists'.mp hsource
    obtain ⟨destination, hdestination⟩ := Option.ne_none_iff_exists'.mp hdestination
    rw [← serviceWord_eq hkind hfits hsource hdestination]
    cases hother : fields.kind with
    | message => exact absurd hother hkind
    | request | response => simp [encode, hother ▸ hfits, hother, hsource, hdestination]

theorem encode_eq_error_iff {error : EncodeError} :
    fields.encode = .error error ↔ fields.Violates error := by
  obtain ⟨priority, kind, port, source, destination, pseudoId⟩ := fields
  unfold encode
  cases hfits : port.fits kind with
  | false => cases error <;> simp [Violates, hfits]
  | true =>
      cases kind <;> cases source <;> cases destination <;> cases error <;> simp [Violates, hfits]

theorem complete_of_encode {id : Identifier} (h : fields.encode = .ok id) : fields.Complete := by
  obtain ⟨priority, kind, port, source, destination, pseudoId⟩ := fields
  unfold encode at h
  cases hfits : port.fits kind with
  | false => simp [hfits] at h
  | true =>
      refine ⟨hfits, ?_⟩
      cases kind <;> cases source <;> cases destination <;> simp_all

/-- Fields that have an identifier are encoded to their word. -/
theorem encode_eq_ok_iff {id : Identifier} :
    fields.encode = .ok id ↔ fields.Complete ∧ id.toNat = fields.word := by
  have hsmall (hfits : fields.port.fits fields.kind = true) :
      (Identifier.ofNat fields.word).toNat = fields.word := by
    have hlt := word_lt hfits
    rw [Identifier.toNat_ofNat]
    omega
  constructor
  · intro h
    have hcomplete := complete_of_encode h
    rw [encode_of_complete hcomplete] at h
    exact ⟨hcomplete, Except.ok.inj h ▸ hsmall hcomplete.1⟩
  · rintro ⟨hcomplete, hid⟩
    rw [encode_of_complete hcomplete]
    exact congrArg Except.ok (Identifier.toNat_injective ((hsmall hcomplete.1).trans hid.symm))

end Fields

end Identifier

end CanNode
