import CanNode.Heap.Allocate
import CanNode.Heap.Free
import CanNode.Proofs.Heap.Shape

/-!
# Moving the boundaries between fragments

The steps that rewrite headers while one fragment is in no bin: it is marked as allocated or
free (`Shaped.mark`), cut in two (`Shaped.split`) or joined with the fragment behind it
(`Shaped.join`).  None of them stores a byte in the payload of another fragment.
-/

namespace CanNode

private theorem entries_update {entries : Nat → Nat} (value : Fragment → Nat)
    {left right : List Fragment} {g : Fragment}
    (h : ∀ f ∈ left ++ right, entries f.offset = value f)
    (hnodup : (offsets (left ++ g :: right)).Nodup) :
    ∀ f ∈ left ++ g :: right, Function.update entries g.offset (value g) f.offset = value f := by
  intro f hf
  rcases List.mem_cons.mp (List.perm_middle.mem_iff.mp hf) with rfl | hf
  · exact Function.update_self ..
  · rw [Function.update_of_ne (offset_ne_of_nodup hnodup hf)]
    exact h f hf

namespace Filed

variable {left right : List Fragment} {chains : Chains} {g : Fragment}

theorem iff_of_used (hused : g.used = true) :
    Filed (left ++ g :: right) chains ↔ Filed (left ++ right) chains := by
  refine forall₂_congr fun bin x => iff_congr Iff.rfl ?_
  constructor
  · intro hfiled
    rcases hfiled with ⟨f, hf, hoffset, hfree, hbin⟩
    have hne := Fragment.ne_of_used hfree hused
    have hmem := List.mem_cons.mp (List.perm_middle.mem_iff.mp hf)
    exact ⟨f, hmem.resolve_left hne, hoffset, hfree, hbin⟩
  · intro hfiled
    rcases hfiled with ⟨f, hf, hrest⟩
    exact ⟨f, List.perm_middle.mem_iff.mpr (List.mem_cons_of_mem g hf), hrest⟩

end Filed

namespace Heap

variable {heap : Heap} {left right : List Fragment} {chains : Chains} {x y : Fragment}
  {size : Nat}

/-- The heap after the headers around a cut are stored. -/
private def carved (heap : Heap) (x tail size rest : Nat) (next : Option Nat) : Heap :=
  ((((((heap.putLink (some tail) .next next).putLink (some tail) .prev (some x)).put
    tail .size rest).put tail .used 0).putLink next .prev (some tail)).putLink
      (some x) .next (some tail)).put x .size size

section Carved

variable {start tail rest : Nat} {next : Option Nat}
  (hbounded : heap.arena.size ≤ noLink) (hstart : heap.Addressable start)
  (htail : heap.Addressable tail) (hnext : heap.LinkFits next)
  (hsize : size ≤ noLink) (hrest : rest ≤ noLink)

include hbounded hstart htail hnext hsize hrest

private theorem split_eq (htailEq : tail = start + size)
    (hsized : heap.wordAt .size start = size + rest) (hlinked : heap.linkAt .next start = next)
    (hmin : minimumFragment ≤ rest) :
    heap.split start size = (heap.carved start tail size rest next).link tail := by
  have henough : ¬ size + rest < size := by omega
  have hdiff : size + rest - size = rest := by omega
  have hlarge : ¬ rest < minimumFragment := by omega
  have hstartStorable : Storable (some start) := storable_some (hstart.lt_noLink hbounded)
  have htailStorable : Storable (some tail) := storable_some (htail.lt_noLink hbounded)
  have hnextStorable := hnext.storable hbounded
  simp only [Heap.split, carved, get_eq hstart, hsized, getLink_eq hstart, hlinked, bind,
    Except.bind, if_neg henough, hdiff, if_neg hlarge, ← htailEq, setLink_eq, setLinkOf_eq, set_eq,
    addressable_put, addressable_putLink, linkFits_put, linkFits_putLink, hstart, htail, hnext,
    hnextStorable, hstartStorable, htailStorable, hrest, hsize, Nat.zero_le]

private theorem carved_words :
    (heap.carved start tail size rest next).linkAt .next =
        Function.update (Function.update (heap.linkAt .next) tail next) start (some tail) ∧
      (heap.carved start tail size rest next).linkAt .prev =
        setLinkAt (Function.update (heap.linkAt .prev) tail (some start)) next (some tail) ∧
      (heap.carved start tail size rest next).wordAt .size =
        Function.update (Function.update (heap.wordAt .size) tail rest) start size ∧
      (heap.carved start tail size rest next).wordAt .used =
        Function.update (heap.wordAt .used) tail 0 ∧
      (heap.carved start tail size rest next).wordAt .nextFree = heap.wordAt .nextFree ∧
      (heap.carved start tail size rest next).wordAt .prevFree = heap.wordAt .prevFree := by
  have hstartStorable : Storable (some start) := storable_some (hstart.lt_noLink hbounded)
  have htailStorable : Storable (some tail) := storable_some (htail.lt_noLink hbounded)
  have hnextStorable := hnext.storable hbounded
  simp [carved, hstart, htail, hnext, hnextStorable, hstartStorable, htailStorable, hrest, hsize]

omit hbounded hsize hrest in
private theorem agreesOn_carved {region : Nat → Prop}
    (hclearStart : ∀ field : Field, field.InHeader → ClearOf region start field)
    (hclearTail : ∀ field : Field, ClearOf region tail field)
    (hclearNext : ∀ y ∈ next, ClearOf region y .prev) :
    AgreesOn region heap (heap.carved start tail size rest next) := by
  have htailClear : ∀ field : Field, ∀ y ∈ some tail, ClearOf region y field := by
    intro field y hmem
    cases hmem
    exact hclearTail field
  have hstartClear : ∀ y ∈ some start, ClearOf region y .next := by
    intro y hmem
    cases hmem
    exact hclearStart .next (by decide)
  refine AgreesOn.put ?_ (by simpa using hstart) (hclearStart .size (by decide)) _
  refine AgreesOn.putLink ?_ (by simpa using hstart) hstartClear _
  refine AgreesOn.putLink ?_ (by simpa using hnext) hclearNext _
  refine AgreesOn.put ?_ (by simpa using htail) (hclearTail .used) _
  refine AgreesOn.put ?_ (by simpa using htail) (hclearTail .size) _
  refine AgreesOn.putLink ?_ (by simpa using htail) (htailClear .prev) _
  exact agreesOn_putLink (by simpa using htail) (htailClear .next) _

end Carved

/-- The heap after the headers around a join are stored. -/
private def joined (heap : Heap) (x size : Nat) (next : Option Nat) : Heap :=
  ((heap.put x .size size).putLink (some x) .next next).putLink next .prev (some x)

section Joined

variable {start behind : Nat} {next : Option Nat}
  (hbounded : heap.arena.size ≤ noLink) (hstart : heap.Addressable start)
  (hnext : heap.LinkFits next) (hsize : size ≤ noLink)

include hbounded hstart hnext hsize

private theorem join_eq {leftSize rightSize : Nat} (hbehind : heap.Addressable behind)
    (hleft : heap.wordAt .size start = leftSize) (hright : heap.wordAt .size behind = rightSize)
    (hlinked : heap.linkAt .next behind = next) (hsum : leftSize + rightSize = size) :
    heap.join start behind = .ok (heap.joined start size next) := by
  have hstartStorable : Storable (some start) := storable_some (hstart.lt_noLink hbounded)
  have hnextStorable := hnext.storable hbounded
  simp only [Heap.join, joined, getLink_eq hbehind, hlinked, get_eq hstart, get_eq hbehind, hleft,
    hright, hsum, bind, Except.bind, setLink_eq, setLinkOf_eq, set_eq, addressable_put,
    linkFits_put, linkFits_putLink, hstart, hnext, hsize, hstartStorable, hnextStorable]

private theorem joined_words :
    (heap.joined start size next).linkAt .next =
        Function.update (heap.linkAt .next) start next ∧
      (heap.joined start size next).linkAt .prev =
        setLinkAt (heap.linkAt .prev) next (some start) ∧
      (heap.joined start size next).wordAt .size =
        Function.update (heap.wordAt .size) start size ∧
      ∀ field ∈ [Field.used, .nextFree, .prevFree],
        (heap.joined start size next).wordAt field = heap.wordAt field := by
  have hstartStorable : Storable (some start) := storable_some (hstart.lt_noLink hbounded)
  have hnextStorable := hnext.storable hbounded
  simp [joined, hstart, hnext, hnextStorable, hstartStorable, hsize]

omit hbounded hsize in
private theorem agreesOn_joined {region : Nat → Prop}
    (hclearStart : ∀ field : Field, field.InHeader → ClearOf region start field)
    (hclearNext : ∀ y ∈ next, ClearOf region y .prev) :
    AgreesOn region heap (heap.joined start size next) := by
  refine AgreesOn.putLink ?_ (by simpa using hnext) hclearNext _
  refine AgreesOn.putLink ?_ (by simpa using hstart) ?_ _
  · exact agreesOn_put hstart (hclearStart .size (by decide)) _
  · intro y hmem
    cases hmem
    exact hclearStart .next (by decide)

end Joined

namespace Shaped

private theorem ne_of_mem_chain {fragments : List Fragment}
    (h : heap.Shaped fragments (left ++ right) chains)
    (hnodup : (offsets (left ++ x :: right)).Nodup) {bin : Fin binCount} {node : Nat}
    (hnode : node ∈ chains bin) : node ≠ x.offset := by
  rcases h.of_mem_chain hnode with ⟨f, hf, rfl, -, -⟩
  exact offset_ne_of_nodup hnodup hf

private theorem ne_of_mem_sides (h : heap.Tiled (left ++ x :: right)) {f : Fragment}
    (hf : f ∈ left ++ right) : x ≠ f := by
  intro heq
  subst heq
  exact offset_ne_of_nodup h.tiling.nodup hf rfl

/-- A fragment in no bin is marked as allocated or free. -/
theorem mark (h : heap.Shaped (left ++ x :: right) (left ++ right) chains) (used : Bool) :
    ∃ heap', heap.set x.offset .used used.toNat = .ok heap' ∧
      heap'.Shaped (left ++ ⟨x.offset, x.size, used⟩ :: right) (left ++ right) chains ∧
      heap'.usage = heap.usage ∧
      ∀ f ∈ left ++ x :: right, AgreesOn f.Payload heap heap' := by
  have hmem : x ∈ left ++ x :: right := by simp
  have hx := h.tiled.addressable hmem
  have hvalue : used.toNat ≤ noLink := Nat.le_trans (Bool.toNat_le used) (by decide)
  have htiling := h.tiled.tiling.relabel used
  refine ⟨_, set_eq hx .used hvalue, ⟨?_, ?_, by simp, h.filed⟩, usage_put, fun f hf => ?_⟩
  · refine ⟨?_, ?_, ?_, ?_, ?_, ?_⟩
    · simpa using h.tiled.bounded
    · simpa using h.tiled.within
    · simpa using htiling
    · simpa [hx] using h.tiled.linked
    · intro f hf
      rw [wordAt_put_of_ne hx (by decide)]
      rcases List.mem_cons.mp (List.perm_middle.mem_iff.mp hf) with rfl | hf
      · exact h.tiled.sized x hmem
      · exact h.tiled.sized f (h.sublist.subset hf)
    · rw [wordAt_put_self hx hvalue]
      exact entries_update (·.used.toNat) (g := ⟨x.offset, x.size, used⟩)
        (fun f hf => h.tiled.marked f (h.sublist.subset hf)) htiling.nodup
  · refine h.binned.congr size_put bins_put occupied_put fun bin node hnode field hfield => ?_
    rw [wordAt_put_of_ne hx]
    intro heq
    subst heq
    simp at hfield
  · refine agreesOn_put hx ?_ _
    exact h.tiled.clearOf hf hmem (.inr (by decide))

section Split

variable (h : heap.Shaped (left ++ x :: right) (left ++ right) chains) (hpos : 0 < size)
  (hdvd : minimumFragment ∣ size) (hlt : size < x.size)

include h hpos hdvd hlt

private theorem carvable : heap.Addressable x.offset ∧ heap.Addressable (x.offset + size) ∧
    heap.LinkFits (offsets right).head? ∧ size ≤ noLink ∧ x.size - size ≤ noLink ∧
    minimumFragment ≤ x.size - size := by
  have hmem : x ∈ left ++ x :: right := by simp
  have hmax := h.tiled.size_le hmem
  have hwithin := h.tiled.within
  have htiling := h.tiled.tiling.cut hpos hdvd hlt false false
  have htail : (⟨x.offset + size, x.size - size, false⟩ : Fragment) ∈
      left ++ ⟨x.offset, size, false⟩ :: ⟨x.offset + size, x.size - size, false⟩ :: right := by
    simp
  have hmin := htiling.minimumFragment_le htail
  have hbounds := htiling.bounds htail
  have hdvd := htiling.dvd_offset (Nat.dvd_zero _) htail
  refine ⟨h.tiled.addressable hmem, ⟨hdvd, ?_⟩, ?_, ?_, ?_, hmin⟩
  · simp only at hmin hbounds
    omega
  · exact h.tiled.linkFits_head fun f hf => by simp [hf]
  · exact Nat.le_trans (Nat.le_of_lt hlt) hmax
  · exact Nat.le_trans (Nat.sub_le ..) hmax

private theorem tiled_carved (hfree : x.used = false) :
    (heap.carved x.offset (x.offset + size) size (x.size - size) (offsets right).head?).Tiled
      (left ++ ⟨x.offset, size, false⟩ :: ⟨x.offset + size, x.size - size, false⟩ :: right) := by
  let front : Fragment := ⟨x.offset, size, false⟩
  let tail : Fragment := ⟨x.offset + size, x.size - size, false⟩
  have hmem : x ∈ left ++ x :: right := by simp
  have htiling : Tiling 0 (left ++ front :: tail :: right) heap.usage.capacity :=
    h.tiled.tiling.cut hpos hdvd hlt false false
  rcases h.carvable hpos hdvd hlt with ⟨hx, htail, hnext, hsize, hrest, -⟩
  obtain ⟨hnextWords, hprevWords, hsizeWords, husedWords, -, -⟩ :=
    carved_words h.tiled.bounded hx htail hnext hsize hrest
  have hlinked : Linked (heap.linkAt .next) (heap.linkAt .prev) none
      ((offsets left ++ [x.offset]) ++ offsets right) none := by
    simpa using h.tiled.linked
  have hnodup : ((offsets left ++ [x.offset]) ++ tail.offset :: offsets right).Nodup := by
    simpa using htiling.nodup
  refine ⟨?_, ?_, ?_, ?_, ?_, ?_⟩
  · simpa [carved] using h.tiled.bounded
  · simpa [carved] using h.tiled.within
  · simpa [carved] using htiling
  · -- the tail enters the list of all fragments behind the fragment that was cut
    rw [hnextWords, hprevWords]
    simpa using hlinked.insert hnodup
  · rw [hsizeWords]
    refine entries_update (·.size) (g := front)
      (entries_update (·.size) (g := tail) (fun f hf => ?_) ?_) htiling.nodup
    · exact h.tiled.sized f (h.sublist.subset hf)
    · exact htiling.nodup.sublist (.map _ ((List.sublist_cons_self front _).append_left left))
  · rw [husedWords]
    have hmarked : ∀ f ∈ (left ++ [front]) ++ right,
        heap.wordAt .used f.offset = f.used.toNat := by
      intro f hf
      simp only [List.append_assoc, List.singleton_append, List.mem_append, List.mem_cons] at hf
      rcases hf with hf | rfl | hf
      · exact h.tiled.marked f (by simp [hf])
      · exact (h.tiled.marked x hmem).trans (congrArg Bool.toNat hfree)
      · exact h.tiled.marked f (by simp [hf])
    have hupdated := entries_update (·.used.toNat) (g := tail) hmarked
      (by simpa using htiling.nodup)
    exact fun f hf => hupdated f (by simpa using hf)

private theorem binned_carved :
    (heap.carved x.offset (x.offset + size) size (x.size - size) (offsets right).head?).Binned
      chains := by
  let front : Fragment := ⟨x.offset, size, false⟩
  let tail : Fragment := ⟨x.offset + size, x.size - size, false⟩
  have htiling : Tiling 0 (left ++ front :: tail :: right) heap.usage.capacity :=
    h.tiled.tiling.cut hpos hdvd hlt false false
  rcases h.carvable hpos hdvd hlt with ⟨hx, htail, hnext, hsize, hrest, -⟩
  obtain ⟨-, -, hsizeWords, -, hforthWords, hbackWords⟩ :=
    carved_words h.tiled.bounded hx htail hnext hsize hrest
  refine h.binned.congr ?_ ?_ ?_ fun bin node hnode field hfield => ?_
  · simp [carved]
  · simp [carved]
  · simp [carved]
  · -- neither part of the fragment is in a bin, so sizes in bins are as before
    have hnotStart : node ≠ x.offset := h.ne_of_mem_chain h.tiled.tiling.nodup hnode
    have hnotTail : node ≠ tail.offset := h.ne_of_mem_chain (x := tail)
      (htiling.nodup.sublist (.map _ ((List.sublist_cons_self front _).append_left left))) hnode
    simp only [List.mem_cons, List.not_mem_nil, or_false] at hfield
    rcases hfield with rfl | rfl | rfl
    · rw [hsizeWords, Function.update_of_ne hnotStart, Function.update_of_ne hnotTail]
    · rw [hforthWords]
    · rw [hbackWords]

private theorem agreesOn_carved_payload {f : Fragment} (hf : f ∈ left ++ right) :
    AgreesOn f.Payload heap
      (heap.carved x.offset (x.offset + size) size (x.size - size) (offsets right).head?) := by
  have hmem : x ∈ left ++ x :: right := by simp
  have hf' := h.sublist.subset hf
  have hne := ne_of_mem_sides h.tiled hf
  rcases h.carvable hpos hdvd hlt with ⟨hx, htail, hnext, -, -, hmin⟩
  refine agreesOn_carved hx htail hnext (fun field hin => ?_) (fun field => ?_) fun y hy => ?_
  · exact h.tiled.clearOf hf' hmem (.inr hin)
  · exact h.tiled.clearOf_inside hf' hmem hne (Nat.le_add_right ..) (by omega) field
  · rcases List.mem_map.mp (List.mem_of_mem_head? hy) with ⟨g, hg, rfl⟩
    exact h.tiled.clearOf hf' (by simp [hg]) (.inr (by decide))

/-- A fragment in no bin is cut in two, and the rest enters its bin. -/
theorem split (hfree : x.used = false) :
    ∃ heap', heap.split x.offset size = .ok heap' ∧
      heap'.Shaped (left ++ ⟨x.offset, size, false⟩ ::
          ⟨x.offset + size, x.size - size, false⟩ :: right)
        (left ++ ⟨x.offset + size, x.size - size, false⟩ :: right)
        (chains.push ⟨x.offset + size, x.size - size, false⟩) ∧
      heap'.usage = heap.usage ∧
      ∀ f ∈ left ++ right, f.used = true → AgreesOn f.Payload heap heap' := by
  let front : Fragment := ⟨x.offset, size, false⟩
  let tail : Fragment := ⟨x.offset + size, x.size - size, false⟩
  rcases h.carvable hpos hdvd hlt with ⟨hx, htail, hnext, hsize, hrest, hmin⟩
  have hsized := (h.tiled.sized x (by simp)).trans (Nat.add_sub_cancel' (Nat.le_of_lt hlt)).symm
  have hsplit := split_eq h.tiled.bounded hx htail hnext hsize hrest rfl hsized
    h.tiled.linkAt_eq.2 hmin
  have hshaped : (heap.carved x.offset tail.offset size tail.size (offsets right).head?).Shaped
      (left ++ front :: tail :: right) (left ++ right) chains :=
    ⟨h.tiled_carved hpos hdvd hlt hfree, h.binned_carved hpos hdvd hlt, by simp, h.filed⟩
  rcases hshaped.link (g := tail) rfl (by simp) with ⟨heap', hrun, hshaped', husage, hagrees⟩
  refine ⟨heap', hsplit.trans hrun, hshaped', ?_, fun f hf hused => ?_⟩
  · rw [husage]
    simp [carved]
  · have hf' : f ∈ left ++ front :: tail :: right := by
      simp only [List.mem_append, List.mem_cons] at hf ⊢
      exact hf.imp_right fun hf => .inr (.inr hf)
    exact (h.agreesOn_carved_payload hpos hdvd hlt hf).trans (hagrees f hf' hused)

end Split

/-- A fragment in no bin takes over the one behind it, which is in none either. -/
theorem join (h : heap.Shaped (left ++ x :: y :: right) (left ++ right) chains)
    (hfree : x.used = false) :
    ∃ heap', heap.join x.offset y.offset = .ok heap' ∧
      heap'.Shaped (left ++ ⟨x.offset, x.size + y.size, false⟩ :: right) (left ++ right) chains ∧
      heap'.usage = heap.usage ∧
      ∀ f ∈ left ++ right, f.used = true → AgreesOn f.Payload heap heap' := by
  let whole : Fragment := ⟨x.offset, x.size + y.size, false⟩
  have hxMem : x ∈ left ++ x :: y :: right := by simp
  have hyMem : y ∈ left ++ x :: y :: right := by simp
  have hx := h.tiled.addressable hxMem
  have hy := h.tiled.addressable hyMem
  have htiling : Tiling 0 (left ++ whole :: right) heap.usage.capacity :=
    (h.tiled.tiling.merge false).2
  have hnext : heap.LinkFits (offsets right).head? :=
    h.tiled.linkFits_head fun f hf => by simp [hf]
  have hsum : x.size + y.size ≤ noLink := by
    have hbounds := htiling.bounds (f := whole) (by simp)
    have hsize : whole.size = x.size + y.size := rfl
    have hwithin := h.tiled.within
    have hbounded := h.tiled.bounded
    omega
  have hlinked : Linked (heap.linkAt .next) (heap.linkAt .prev) none
      ((offsets left ++ [x.offset]) ++ y.offset :: offsets right) none := by
    simpa using h.tiled.linked
  have hlink : heap.linkAt .next y.offset = (offsets right).head? := by
    rcases Linked.append_iff.mp hlinked with ⟨-, -, hlink, -⟩
    exact hlink.trans (Option.or_none ..)
  have hjoin := join_eq h.tiled.bounded hx hnext hsum hy (h.tiled.sized x hxMem)
    (h.tiled.sized y hyMem) hlink rfl
  obtain ⟨hnextWords, hprevWords, hsizeWords, hotherWords⟩ :=
    joined_words h.tiled.bounded hx hnext hsum
  refine ⟨_, hjoin, ⟨⟨?_, ?_, ?_, ?_, ?_, ?_⟩, ?_, by simp, h.filed⟩, ?_, fun f hf _ => ?_⟩
  · simpa [joined] using h.tiled.bounded
  · simpa [joined] using h.tiled.within
  · simpa [joined] using htiling
  · rw [hnextWords, hprevWords]
    simpa using hlinked.remove (by simpa using h.tiled.tiling.nodup)
  · rw [hsizeWords]
    exact entries_update (·.size) (g := whole) (fun f hf => h.tiled.sized f (h.sublist.subset hf))
      htiling.nodup
  · rw [hotherWords .used (by decide)]
    intro f hf
    rcases List.mem_cons.mp (List.perm_middle.mem_iff.mp hf) with rfl | hf
    · exact (h.tiled.marked x hxMem).trans (congrArg Bool.toNat hfree)
    · exact h.tiled.marked f (h.sublist.subset hf)
  · refine h.binned.congr ?_ ?_ ?_ fun bin node hnode field hfield => ?_
    · simp [joined]
    · simp [joined]
    · simp [joined]
    · have hne : node ≠ x.offset := h.ne_of_mem_chain (x := whole) htiling.nodup hnode
      simp only [List.mem_cons, List.not_mem_nil, or_false] at hfield
      rcases hfield with rfl | rfl | rfl
      · rw [hsizeWords, Function.update_of_ne hne]
      · rw [hotherWords .nextFree (by decide)]
      · rw [hotherWords .prevFree (by decide)]
  · simp [joined]
  · have hf' := h.sublist.subset hf
    refine agreesOn_joined hx hnext (fun field hin => ?_) fun z hz => ?_
    · exact h.tiled.clearOf hf' hxMem (.inr hin)
    · rcases List.mem_map.mp (List.mem_of_mem_head? hz) with ⟨g, hg, rfl⟩
      exact h.tiled.clearOf hf' (by simp [hg]) (.inr (by decide))

end Shaped

end Heap

end CanNode
