import CanNode.Proofs.Identifier.Layout

/-!
# Encoding and decoding identifiers

Encoding and decoding are inverse to each other, in one statement: fields are encoded to an
identifier exactly if the identifier has 29 bits, conforms, and shows these fields
(`Fields.encode_eq_ok_iff_shows`).  Between the words and what the accessors show stands `Reads`,
which says bit for bit where the fields are.
-/

namespace CanNode

namespace Identifier

/-! ## What an identifier shows -/

/-- The accessors return these fields, and the identifier of an anonymous message has the
pseudo-identifier in its lowest seven bits. -/
structure Shows (id : Identifier) (fields : Fields) : Prop where
  priority : id.priority = fields.priority
  kind : id.kind = fields.kind
  port : id.port = fields.port
  source : id.source = fields.source
  destination : id.destination = fields.destination
  pseudoId : id.isAnonymous = true → id.toNat % 128 = fields.pseudoId

def fields (id : Identifier) : Fields where
  priority := id.priority
  kind := id.kind
  port := id.port
  source := id.source
  destination := id.destination
  pseudoId := (NodeId.truncate id.toNat).val

theorem shows_fields (id : Identifier) : id.Shows id.fields where
  priority := rfl
  kind := rfl
  port := rfl
  source := rfl
  destination := rfl
  pseudoId := fun _ => (NodeId.toNat_truncate id.toNat).symm

/-- Every field stands in its place. -/
structure Reads (id : Identifier) (fields : Fields) : Prop where
  level : id.toNat / 2 ^ 26 % 8 = fields.priority.level
  isService : id.isService = true ↔ fields.kind ≠ .message
  mark : id.toNat / 2 ^ 24 % 2 = fields.mark
  subject : fields.kind = .message → id.toNat / 2 ^ 8 % 2 ^ 13 = fields.port.toNat
  service : fields.kind ≠ .message → id.toNat / 2 ^ 14 % 2 ^ 9 = fields.port.toNat
  receiver : fields.kind ≠ .message → id.toNat / 2 ^ 7 % 128 = fields.receiver
  sender : id.toNat % 128 = fields.sender

variable {id : Identifier} {fields : Fields}

/-! ## From the accessors to the bits -/

namespace Shows

theorem isService_iff (h : id.Shows fields) : id.isService = true ↔ fields.kind ≠ .message := by
  rw [← h.kind, Ne, kind_eq_message_iff, Bool.not_eq_false]

theorem isAnonymous_iff (h : id.Shows fields) :
    id.isAnonymous = true ↔ fields.source = none := by
  rw [← h.source, Identifier.source]
  cases id.isAnonymous <;> simp

theorem sender_eq (h : id.Shows fields) : id.toNat % 128 = fields.sender := by
  cases hanonymous : id.isAnonymous with
  | true =>
      rw [Fields.sender, h.isAnonymous_iff.mp hanonymous]
      exact h.pseudoId hanonymous
  | false =>
      obtain ⟨node, hnode, hbits⟩ := source_of_not_anonymous hanonymous
      rw [Fields.sender, ← h.source, hnode]
      exact hbits.symm

theorem mark_eq (h : id.Shows fields) : id.toNat / 2 ^ 24 % 2 = fields.mark := by
  have hkind := h.kind
  cases hservice : id.isService with
  | false =>
      have hmessage := hkind.symm.trans (kind_eq_message_iff.mpr hservice)
      have hanonymous := h.isAnonymous_iff
      rw [Identifier.isAnonymous_iff] at hanonymous
      simp only [isService_eq_false_iff.mp hservice, true_and] at hanonymous
      simp only [Fields.mark, hmessage]
      split
      · next hsource => exact hanonymous.mpr hsource
      · next hsource =>
          have hclear := mt hanonymous.mp hsource
          omega
  | true =>
      rw [kind_of_isService hservice] at hkind
      split at hkind
      · next hset => simp only [Fields.mark, ← hkind, hset]
      · next hclear =>
          simp only [Fields.mark, ← hkind]
          omega

theorem complete (h : id.Shows fields) : fields.Complete := by
  cases hservice : id.isService with
  | false =>
      have hmessage := h.kind.symm.trans (kind_eq_message_iff.mpr hservice)
      refine ⟨?_, .inl ⟨hmessage, ?_⟩⟩
      · have hport := toNat_port_of_message hservice
        rw [PortId.fits_iff, hmessage, ← h.port, hport]
        exact Nat.le_of_lt_succ (Nat.mod_lt _ (Nat.two_pow_pos 13))
      · rw [← h.destination, Identifier.destination, hservice, if_neg Bool.false_ne_true]
  | true =>
      have hkind := h.isService_iff.mp hservice
      refine ⟨?_, .inr ⟨hkind, ?_, ?_⟩⟩
      · have hport := toNat_port_of_service hservice
        have hlargest : PortId.largest fields.kind = 511 := by
          cases hother : fields.kind with
          | message => exact absurd hother hkind
          | request | response => rfl
        rw [PortId.fits_iff, hlargest, ← h.port, hport]
        exact Nat.le_of_lt_succ (Nat.mod_lt _ (Nat.two_pow_pos 9))
      · rw [Ne, ← h.isAnonymous_iff]
        simp [isAnonymous, hservice]
      · obtain ⟨node, hnode, _⟩ := destination_of_service hservice
        rw [← h.destination, hnode]
        exact Option.some_ne_none node

theorem reads (h : id.Shows fields) : id.Reads fields where
  level := by rw [← level_priority, h.priority]
  isService := h.isService_iff
  mark := h.mark_eq
  subject := fun hkind => by
    have hservice := kind_eq_message_iff.mp (h.kind.trans hkind)
    rw [← toNat_port_of_message hservice, h.port]
  service := fun hkind => by
    rw [← toNat_port_of_service (h.isService_iff.mpr hkind), h.port]
  receiver := fun hkind => by
    obtain ⟨node, hnode, hbits⟩ := destination_of_service (h.isService_iff.mpr hkind)
    rw [Fields.receiver, ← h.destination, hnode]
    exact hbits.symm
  sender := h.sender_eq

/-- An identifier that shows the same as another shows whatever the other one shows. -/
theorem trans {other : Identifier} {fields' : Fields} (h : id.Shows fields)
    (hother : other.Shows fields) (h' : other.Shows fields') : id.Shows fields' where
  priority := h.priority.trans (hother.priority.symm.trans h'.priority)
  kind := h.kind.trans (hother.kind.symm.trans h'.kind)
  port := h.port.trans (hother.port.symm.trans h'.port)
  source := h.source.trans (hother.source.symm.trans h'.source)
  destination := h.destination.trans (hother.destination.symm.trans h'.destination)
  pseudoId := fun hanonymous => by
    have hagain := hother.isAnonymous_iff.mpr (h.isAnonymous_iff.mp hanonymous)
    rw [h.pseudoId hanonymous, ← hother.pseudoId hagain, h'.pseudoId hagain]

end Shows

/-! ## From the bits to the accessors -/

namespace Reads

theorem kind_eq (h : id.Reads fields) : id.kind = fields.kind := by
  cases hservice : id.isService with
  | false =>
      have hmessage := mt h.isService.mpr (by simp [hservice])
      rw [kind_eq_message_iff.mpr hservice, Decidable.of_not_not hmessage]
  | true =>
      have hmark := h.mark
      rw [kind_of_isService hservice]
      cases hkind : fields.kind with
      | message => exact absurd hkind (h.isService.mp hservice)
      | request => rw [if_pos (hmark.trans (by simp [Fields.mark, hkind]))]
      | response =>
          rw [if_neg]
          rw [hmark]
          simp [Fields.mark, hkind]

theorem isAnonymous_iff (h : id.Reads fields) (hcomplete : fields.Complete) :
    id.isAnonymous = true ↔ fields.source = none := by
  have hmark := h.mark
  rw [Identifier.isAnonymous_iff, ← isService_eq_false_iff, hmark]
  obtain ⟨_, ⟨hkind, _⟩ | ⟨hkind, hsource, _⟩⟩ := hcomplete
  · have hservice : id.isService = false := by
      simpa [hkind] using h.isService
    simp [hservice, Fields.mark, hkind]
  · simp [h.isService.mpr hkind, hsource]

theorem port_eq (h : id.Reads fields) : id.port = fields.port := by
  apply PortId.toNat_injective
  cases hservice : id.isService with
  | false =>
      rw [toNat_port_of_message hservice]
      exact h.subject (h.kind_eq.symm.trans (kind_eq_message_iff.mpr hservice))
  | true =>
      rw [toNat_port_of_service hservice]
      exact h.service (h.isService.mp hservice)

theorem source_eq (h : id.Reads fields) (hcomplete : fields.Complete) :
    id.source = fields.source := by
  have hanonymous := h.isAnonymous_iff hcomplete
  have hsender := h.sender
  cases hsource : fields.source with
  | none => rw [source, hanonymous.mpr hsource, if_pos rfl]
  | some node =>
      have hknown : id.isAnonymous = false := by
        simpa [hsource] using hanonymous
      obtain ⟨other, hother, hbits⟩ := source_of_not_anonymous hknown
      rw [Fields.sender, hsource] at hsender
      rw [hother, NodeId.toNat_injective (hbits.trans hsender)]

theorem destination_eq (h : id.Reads fields) (hcomplete : fields.Complete) :
    id.destination = fields.destination := by
  obtain ⟨_, ⟨hkind, hdestination⟩ | ⟨hkind, _, hdestination⟩⟩ := hcomplete
  · have hservice : id.isService = false := by
      simpa [hkind] using h.isService
    rw [destination, hservice, if_neg Bool.false_ne_true, hdestination]
  · obtain ⟨node, hnode⟩ := Option.ne_none_iff_exists'.mp hdestination
    obtain ⟨other, hother, hbits⟩ := destination_of_service (h.isService.mpr hkind)
    have hreceiver := h.receiver hkind
    rw [Fields.receiver, hnode] at hreceiver
    rw [hother, hnode, NodeId.toNat_injective (hbits.trans hreceiver)]

theorem shows (h : id.Reads fields) (hcomplete : fields.Complete) : id.Shows fields where
  priority := by
    rw [← Priority.ofLevel_level id.priority, level_priority, h.level, Priority.ofLevel_level]
  kind := h.kind_eq
  port := h.port_eq
  source := h.source_eq hcomplete
  destination := h.destination_eq hcomplete
  pseudoId := fun hanonymous => by
    rw [h.sender, Fields.sender, (h.isAnonymous_iff hcomplete).mp hanonymous]

end Reads

/-! ## Words and their fields -/

theorem toNat_eq_word_iff_of_message (hfits : fields.port.fits fields.kind = true)
    (hkind : fields.kind = .message) :
    id.toNat = fields.word ↔ id.isExtended = true ∧ id.Conforms ∧ id.Reads fields := by
  have hlevel := fields.priority.level_lt
  have hmark := fields.mark_lt
  have hsender := fields.sender_lt
  have hport := (Fields.port_lt_of_fits hfits).1 hkind
  rw [isExtended_iff, Fields.word_of_message hkind hfits]
  constructor
  · intro hword
    have hservice : id.toNat / 2 ^ 25 % 2 = 0 := by omega
    refine ⟨by omega, ⟨?_, fun _ => ⟨?_, ?_, ?_⟩⟩, ?_⟩
    · exact bit_eq_false_iff.mpr (by omega)
    · exact bit_eq_true_iff.mpr (by omega)
    · exact bit_eq_true_iff.mpr (by omega)
    · exact bit_eq_false_iff.mpr (by omega)
    · exact
        { level := by omega
          isService := by simp [isService_eq_false_iff.mpr hservice, hkind]
          mark := by omega
          subject := fun _ => by omega
          service := fun h => absurd hkind h
          receiver := fun h => absurd hkind h
          sender := by omega }
  · rintro ⟨hlt, ⟨hgap, hmessage⟩, hreads⟩
    have hservice : id.isService = false := by
      simpa [hkind] using hreads.isService
    obtain ⟨hhigh, hlow, hclear⟩ := hmessage hservice
    rw [bit_eq_true_iff] at hhigh hlow
    rw [bit_eq_false_iff] at hgap hclear
    rw [isService_eq_false_iff] at hservice
    have hlevels := hreads.level
    have hmarks := hreads.mark
    have hports := hreads.subject hkind
    have hsenders := hreads.sender
    -- a number below `2 ^ 29` is the sum of its digits, and all of them are known now
    omega

theorem toNat_eq_word_iff_of_service (hfits : fields.port.fits fields.kind = true)
    (hkind : fields.kind ≠ .message) :
    id.toNat = fields.word ↔ id.isExtended = true ∧ id.Conforms ∧ id.Reads fields := by
  have hlevel := fields.priority.level_lt
  have hmark := fields.mark_lt
  have hsender := fields.sender_lt
  have hreceiver := fields.receiver_lt
  have hport := (Fields.port_lt_of_fits hfits).2 hkind
  rw [isExtended_iff, Fields.word_of_service hkind hfits]
  constructor
  · intro hword
    have hservice : id.isService = true := isService_iff.mpr (by omega)
    refine ⟨by omega, ⟨?_, fun h => ?_⟩, ?_⟩
    · exact bit_eq_false_iff.mpr (by omega)
    · cases h.symm.trans hservice
    · exact
        { level := by omega
          isService := iff_of_true hservice hkind
          mark := by omega
          subject := fun h => absurd h hkind
          service := fun _ => by omega
          receiver := fun _ => by omega
          sender := by omega }
  · rintro ⟨hlt, ⟨hgap, _⟩, hreads⟩
    have hservice := isService_iff.mp (hreads.isService.mpr hkind)
    rw [bit_eq_false_iff] at hgap
    have hlevels := hreads.level
    have hmarks := hreads.mark
    have hports := hreads.service hkind
    have hreceivers := hreads.receiver hkind
    have hsenders := hreads.sender
    omega

/-- The word of the fields is the one conforming identifier of 29 bits that has them in their
places. -/
theorem toNat_eq_word_iff (hfits : fields.port.fits fields.kind = true) :
    id.toNat = fields.word ↔ id.isExtended = true ∧ id.Conforms ∧ id.Reads fields := by
  by_cases hkind : fields.kind = .message
  · exact toNat_eq_word_iff_of_message hfits hkind
  · exact toNat_eq_word_iff_of_service hfits hkind

/-- Encoding is the inverse of decoding: fields are encoded to the conforming identifier of 29
bits that shows them. -/
theorem Fields.encode_eq_ok_iff_shows :
    fields.encode = .ok id ↔ id.isExtended = true ∧ id.Conforms ∧ id.Shows fields := by
  rw [Fields.encode_eq_ok_iff]
  constructor
  · rintro ⟨hcomplete, hword⟩
    obtain ⟨hextended, hconforms, hreads⟩ := (toNat_eq_word_iff hcomplete.1).mp hword
    exact ⟨hextended, hconforms, hreads.shows hcomplete⟩
  · rintro ⟨hextended, hconforms, hshows⟩
    have hcomplete := hshows.complete
    exact ⟨hcomplete, (toNat_eq_word_iff hcomplete.1).mpr ⟨hextended, hconforms, hshows.reads⟩⟩

/-- Decoding undoes encoding.  Complete fields have an identifier, of 29 bits, that conforms and
shows them; all others are refused, with the error for the first thing that is wrong. -/
theorem Fields.encode_decodes (fields : Fields) :
    (∀ id, fields.encode = .ok id →
      id.toNat < 2 ^ 29 ∧ id.toNat = fields.word ∧ id.Conforms ∧ id.Shows fields ∧
        (id.isService = true ↔ fields.kind ≠ .message) ∧
        (id.isAnonymous = true ↔ fields.kind = .message ∧ fields.source = none)) ∧
      ((∃ id, fields.encode = .ok id) ↔ fields.Complete) ∧
      ∀ error, fields.encode = .error error ↔ fields.Violates error := by
  refine ⟨fun id h => ?_, ⟨fun ⟨id, h⟩ => (Fields.encode_eq_ok_iff.mp h).1,
    fun h => ⟨_, Fields.encode_of_complete h⟩⟩, fun error => Fields.encode_eq_error_iff⟩
  obtain ⟨hcomplete, hword⟩ := Fields.encode_eq_ok_iff.mp h
  obtain ⟨hextended, hconforms, hshows⟩ := Fields.encode_eq_ok_iff_shows.mp h
  refine ⟨isExtended_iff.mp hextended, hword, hconforms, hshows, hshows.isService_iff, ?_⟩
  rw [hshows.isAnonymous_iff]
  refine ⟨fun hsource => ⟨?_, hsource⟩, And.right⟩
  obtain ⟨_, ⟨hkind, _⟩ | ⟨_, hnamed, _⟩⟩ := hcomplete
  · exact hkind
  · exact absurd hsource hnamed

/-- Encoding undoes decoding on the identifiers that conform, and on no others: from any
identifier of 29 bits, the fields that it shows can be encoded, to an identifier that shows the
same, and this is the one they come from exactly if it conforms. -/
theorem encode_fields (id : Identifier) (hextended : id.isExtended = true) :
    id.Shows id.fields ∧
      (∀ fields, id.Shows fields → ∃ built, fields.encode = .ok built ∧ built.Shows id.fields ∧
        built.isAnonymous = id.isAnonymous ∧ (built = id ↔ id.Conforms)) ∧
      ∀ other : Identifier, other.isExtended = true → id.Conforms → other.Conforms →
        other.Shows id.fields → other = id := by
  have hdetermined {first second : Identifier} {fields : Fields}
      (hfirst : fields.encode = .ok first) (hsecond : fields.encode = .ok second) :
      first = second :=
    Except.ok.inj (hfirst.symm.trans hsecond)
  refine ⟨id.shows_fields, fun fields hshows => ?_, fun other hother hconforms hagrees hsame => ?_⟩
  · have hbuilt := Fields.encode_of_complete hshows.complete
    obtain ⟨_, hconforms, hsame⟩ := Fields.encode_eq_ok_iff_shows.mp hbuilt
    refine ⟨_, hbuilt, hsame.trans hshows id.shows_fields, ?_, ⟨fun h => h ▸ hconforms,
      fun h => ?_⟩⟩
    · rw [Bool.eq_iff_iff, hsame.isAnonymous_iff, hshows.isAnonymous_iff]
    · exact hdetermined hbuilt (Fields.encode_eq_ok_iff_shows.mpr ⟨hextended, h, hshows⟩)
  · exact hdetermined (Fields.encode_eq_ok_iff_shows.mpr ⟨hother, hagrees, hsame⟩)
      (Fields.encode_eq_ok_iff_shows.mpr ⟨hextended, hconforms, id.shows_fields⟩)

/-- A message with bit 23 set is encoded to another one, and a message that conforms to itself. -/
theorem encode_fields_sample :
    (ofNat 0x10E01234).isExtended = true ∧ ¬ (ofNat 0x10E01234).Conforms ∧
      (∃ built, (ofNat 0x10E01234).fields.encode = .ok built ∧ built ≠ ofNat 0x10E01234 ∧
        built.Shows (ofNat 0x10E01234).fields) ∧
      (ofNat 0x10601234).isExtended = true ∧ (ofNat 0x10601234).Conforms ∧
      (ofNat 0x10601234).fields.encode = .ok (ofNat 0x10601234) := by
  have hodd : ¬ (ofNat 0x10E01234).Conforms := fun h => absurd h.gap (by decide)
  have heven : (ofNat 0x10601234).Conforms := ⟨by decide, fun _ => by decide⟩
  obtain ⟨hshows, hbuild, _⟩ := encode_fields (ofNat 0x10E01234) (by decide)
  obtain ⟨built, hencode, hsame, _, hiff⟩ := hbuild _ hshows
  obtain ⟨hshows', hbuild', _⟩ := encode_fields (ofNat 0x10601234) (by decide)
  obtain ⟨built', hencode', _, _, hiff'⟩ := hbuild' _ hshows'
  exact ⟨by decide, hodd, ⟨built, hencode, mt hiff.mp hodd, hsame⟩, by decide, heven,
    hiff'.mpr heven ▸ hencode'⟩

end Identifier

end CanNode
