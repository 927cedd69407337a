import CanNode.Proofs.Identifier.Layout

/-!
# Arbitration

Of two frames that start at once the one with the smaller identifier wins the bus.  `Fields.rank`
lists the fields of an identifier in the order in which they decide about that, and
`Fields.encode_lt_iff_rank_lt` says that identifiers compare like these lists: no field reaches
into the place of a more significant one.
-/

namespace CanNode

namespace Identifier

namespace Fields

/-- What decides between two identifiers, the most significant first: the priority, whether this is
a service, and then what its class has. -/
def rank (fields : Fields) : List Nat :=
  match fields.kind with
  | .message => [fields.priority.level, 0, fields.mark, fields.port.toNat, fields.sender]
  | _ =>
      [fields.priority.level, 1, fields.mark, fields.port.toNat, fields.receiver, fields.sender]

variable {fields fields' : Fields}

theorem rank_of_message (hkind : fields.kind = .message) :
    fields.rank = [fields.priority.level, 0, fields.mark, fields.port.toNat, fields.sender] := by
  rw [rank, hkind]

theorem rank_of_service (hkind : fields.kind ≠ .message) :
    fields.rank =
      [fields.priority.level, 1, fields.mark, fields.port.toNat, fields.receiver,
        fields.sender] := by
  unfold rank
  split
  · next h => exact absurd h hkind
  · rfl

/-! ## Digits -/

section Digits

variable {low a b r s : Nat} {digits digits' : List Nat}

theorem place_lt_iff (hr : r < 2 ^ low) (hs : s < 2 ^ low) :
    a * 2 ^ low + r < b * 2 ^ low + s ↔ a < b ∨ a = b ∧ r < s := by
  obtain hlt | rfl | hgt := Nat.lt_trichotomy a b
  · have hmul : (a + 1) * 2 ^ low ≤ b * 2 ^ low := Nat.mul_le_mul_right _ hlt
    rw [Nat.add_mul, Nat.one_mul] at hmul
    exact iff_of_true (by omega) (.inl hlt)
  · simp
  · have hmul : (b + 1) * 2 ^ low ≤ a * 2 ^ low := Nat.mul_le_mul_right _ hgt
    rw [Nat.add_mul, Nat.one_mul] at hmul
    exact iff_of_false (by omega) (by omega)

/-- A digit is put in front of numbers that compare like their digits. -/
theorem place_lt_iff_cons_lt (hr : r < 2 ^ low) (hs : s < 2 ^ low)
    (h : r < s ↔ digits < digits') :
    a * 2 ^ low + r < b * 2 ^ low + s ↔ a :: digits < b :: digits' := by
  rw [place_lt_iff hr hs, List.cons_lt_cons_iff, h]

theorem lt_iff_singleton_lt : a < b ↔ [a] < [b] := by
  simp [List.cons_lt_cons_iff]

end Digits

/-! ## Words -/

/-- Two messages: below the priority stand the anonymous flag, the subject and the sender. -/
theorem word_lt_iff_of_messages (hkind : fields.kind = .message) (hkind' : fields'.kind = .message)
    (hfits : fields.port.fits fields.kind = true)
    (hfits' : fields'.port.fits fields'.kind = true) :
    fields.word < fields'.word ↔ fields.rank < fields'.rank := by
  have hport := (port_lt_of_fits hfits).1 hkind
  have hport' := (port_lt_of_fits hfits').1 hkind'
  have hmark := fields.mark_lt
  have hmark' := fields'.mark_lt
  have hsender := fields.sender_lt
  have hsender' := fields'.sender_lt
  rw [word_of_message hkind hfits, word_of_message hkind' hfits', rank_of_message hkind,
    rank_of_message hkind']
  refine place_lt_iff_cons_lt (by omega) (by omega) ?_
  rw [List.cons_lt_cons_self]
  refine place_lt_iff_cons_lt (by omega) (by omega) ?_
  rw [Nat.add_lt_add_iff_left]
  exact place_lt_iff_cons_lt (by omega) (by omega) lt_iff_singleton_lt

/-- Two services: below the priority stand the request flag, the service and both ends. -/
theorem word_lt_iff_of_services (hkind : fields.kind ≠ .message) (hkind' : fields'.kind ≠ .message)
    (hfits : fields.port.fits fields.kind = true)
    (hfits' : fields'.port.fits fields'.kind = true) :
    fields.word < fields'.word ↔ fields.rank < fields'.rank := by
  have hport := (port_lt_of_fits hfits).2 hkind
  have hport' := (port_lt_of_fits hfits').2 hkind'
  have hmark := fields.mark_lt
  have hmark' := fields'.mark_lt
  have hreceiver := fields.receiver_lt
  have hreceiver' := fields'.receiver_lt
  have hsender := fields.sender_lt
  have hsender' := fields'.sender_lt
  rw [word_of_service hkind hfits, word_of_service hkind' hfits', rank_of_service hkind,
    rank_of_service hkind']
  refine place_lt_iff_cons_lt (by omega) (by omega) ?_
  rw [List.cons_lt_cons_self, Nat.add_lt_add_iff_left]
  refine place_lt_iff_cons_lt (by omega) (by omega) ?_
  refine place_lt_iff_cons_lt (by omega) (by omega) ?_
  exact place_lt_iff_cons_lt (by omega) (by omega) lt_iff_singleton_lt

/-- A message and a service: at the same priority bit 25 decides for the message. -/
theorem word_lt_iff_of_message_service (hkind : fields.kind = .message)
    (hkind' : fields'.kind ≠ .message) (hfits : fields.port.fits fields.kind = true)
    (hfits' : fields'.port.fits fields'.kind = true) :
    (fields.word < fields'.word ↔ fields.rank < fields'.rank) ∧
      (fields'.word < fields.word ↔ fields'.rank < fields.rank) := by
  have hport := (port_lt_of_fits hfits).1 hkind
  have hport' := (port_lt_of_fits hfits').2 hkind'
  have hmark := fields.mark_lt
  have hmark' := fields'.mark_lt
  have hreceiver' := fields'.receiver_lt
  have hsender := fields.sender_lt
  have hsender' := fields'.sender_lt
  rw [word_of_message hkind hfits, word_of_service hkind' hfits', rank_of_message hkind,
    rank_of_service hkind']
  constructor
  · refine place_lt_iff_cons_lt (by omega) (by omega) (iff_of_true (by omega) ?_)
    exact List.cons_lt_cons_iff.mpr (.inl Nat.zero_lt_one)
  · refine place_lt_iff_cons_lt (by omega) (by omega) (iff_of_false (by omega) fun h => ?_)
    simp [List.cons_lt_cons_iff] at h

/-- Words compare like ranks. -/
theorem word_lt_iff (hfits : fields.port.fits fields.kind = true)
    (hfits' : fields'.port.fits fields'.kind = true) :
    fields.word < fields'.word ↔ fields.rank < fields'.rank := by
  by_cases hkind : fields.kind = .message
  · by_cases hkind' : fields'.kind = .message
    · exact word_lt_iff_of_messages hkind hkind' hfits hfits'
    · exact (word_lt_iff_of_message_service hkind hkind' hfits hfits').1
  · by_cases hkind' : fields'.kind = .message
    · exact (word_lt_iff_of_message_service hkind' hkind hfits' hfits).2
    · exact word_lt_iff_of_services hkind hkind' hfits hfits'

theorem word_eq_iff (hfits : fields.port.fits fields.kind = true)
    (hfits' : fields'.port.fits fields'.kind = true) :
    fields.word = fields'.word ↔ fields.rank = fields'.rank := by
  have hless := word_lt_iff hfits hfits'
  have hgreater := word_lt_iff hfits' hfits
  constructor
  · intro heq
    rw [heq] at hless hgreater
    exact List.le_antisymm (List.not_lt.mp (mt hgreater.mpr (Nat.lt_irrefl _)))
      (List.not_lt.mp (mt hless.mpr (Nat.lt_irrefl _)))
  · intro heq
    rw [heq] at hless hgreater
    exact Nat.le_antisymm (Nat.not_lt.mp (mt hgreater.mp (List.lt_irrefl _)))
      (Nat.not_lt.mp (mt hless.mp (List.lt_irrefl _)))

theorem rank_lt_of_priority_lt (h : fields.priority.level < fields'.priority.level) :
    fields.rank < fields'.rank := by
  unfold rank
  split <;> split <;> exact List.cons_lt_cons_iff.mpr (.inl h)

/-- Identifiers are ordered by priority first, then messages before services, then by the fields
of their class.  So the more urgent priority always wins the bus, and fields with the same
identifier agree in all that decides. -/
theorem encode_lt_iff_rank_lt {id id' : Identifier} (h : fields.encode = .ok id)
    (h' : fields'.encode = .ok id') :
    (id.toNat < id'.toNat ↔ fields.rank < fields'.rank) ∧
      (fields.priority.level < fields'.priority.level → id.toNat < id'.toNat) ∧
      (id = id' ↔ fields.rank = fields'.rank) := by
  obtain ⟨hcomplete, hword⟩ := encode_eq_ok_iff.mp h
  obtain ⟨hcomplete', hword'⟩ := encode_eq_ok_iff.mp h'
  have horder : id.toNat < id'.toNat ↔ fields.rank < fields'.rank := by
    rw [hword, hword']
    exact word_lt_iff hcomplete.1 hcomplete'.1
  refine ⟨horder, fun hpriority => horder.mpr (rank_lt_of_priority_lt hpriority), ?_⟩
  rw [← word_eq_iff hcomplete.1 hcomplete'.1, ← hword, ← hword']
  exact ⟨congrArg toNat, toNat_injective⟩

private def urgentRequest : Fields :=
  (service .request (.ofNat 511) (.truncate 127) (.truncate 127)).withPriority .fast

private def lateMessage : Fields :=
  (message (.ofNat 0) (.truncate 0)).withPriority .high

/-- The request has the largest fields below the priority, the message the smallest. -/
theorem encode_lt_iff_rank_lt_sample :
    urgentRequest.encode = .ok (ofNat 0x0B7FFFFF) ∧ lateMessage.encode = .ok (ofNat 0x0C600000) ∧
      urgentRequest.rank = [2, 1, 1, 511, 127, 127] ∧ lateMessage.rank = [3, 0, 0, 0, 0] ∧
      (ofNat 0x0B7FFFFF).toNat < (ofNat 0x0C600000).toNat ∧
      ofNat 0x0B7FFFFF ≠ ofNat 0x0C600000 := by
  have hrequest : urgentRequest.encode = .ok (ofNat 0x0B7FFFFF) := rfl
  have hmessage : lateMessage.encode = .ok (ofNat 0x0C600000) := rfl
  obtain ⟨-, hurgent, hequal⟩ := encode_lt_iff_rank_lt hrequest hmessage
  exact ⟨hrequest, hmessage, by decide, by decide, hurgent (by decide), mt hequal.mp (by decide)⟩

end Fields

end Identifier

end CanNode
