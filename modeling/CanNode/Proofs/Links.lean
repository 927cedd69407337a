import Mathlib.Data.List.Chain
import Mathlib.Logic.Function.Basic

/-!
# Doubly linked lists

A list is stored in two link functions: `forth` leads from a node to the one behind it, `back`
to the one before it.  `Linked.insert` and `Linked.remove` say which links have to change for a
node to enter a list or to leave it; every other link stays as it is.
-/

namespace CanNode

/-- Links that start from the same nodes, and lead back from each to the one that led to it.
`before` and `after` are what the list continues with on its two sides. -/
def Linked (forth back : Nat → Option Nat) (before : Option Nat) :
    List Nat → Option Nat → Prop
  | [], _ => True
  | node :: rest, after =>
      back node = before ∧ forth node = rest.head?.or after ∧
        Linked forth back (some node) rest after

instance decidableLinked (forth back : Nat → Option Nat) : ∀ before nodes after,
    Decidable (Linked forth back before nodes after)
  | _, [], _ => .isTrue trivial
  | before, node :: rest, after =>
      have := decidableLinked forth back (some node) rest after
      inferInstanceAs (Decidable (back node = before ∧ forth node = rest.head?.or after ∧
        Linked forth back (some node) rest after))

def setLinkAt (links : Nat → Option Nat) (target link : Option Nat) : Nat → Option Nat :=
  match target with
  | none => links
  | some node => Function.update links node link

@[simp] theorem setLinkAt_some (links : Nat → Option Nat) (node : Nat) (link : Option Nat) :
    setLinkAt links (some node) link = Function.update links node link := rfl

theorem setLinkAt_of_notMem {links : Nat → Option Nat} {target link : Option Nat} {node : Nat}
    (h : node ∉ target) : setLinkAt links target link node = links node := by
  cases target with
  | none => rfl
  | some other =>
      have hne : node ≠ other := fun heq => h (heq ▸ rfl)
      exact Function.update_of_ne hne link links

theorem setLinkAt_congr {links links' : Nat → Option Nat} {target link : Option Nat} {node : Nat}
    (h : links' node = links node) :
    setLinkAt links' target link node = setLinkAt links target link node := by
  cases target with
  | none => exact h
  | some other => simp only [setLinkAt_some, Function.update_apply, h]

namespace Linked

variable {forth back forth' back' : Nat → Option Nat} {before after : Option Nat}
  {nodes left right : List Nat} {node : Nat}

theorem congr (h : Linked forth back before nodes after)
    (hforth : ∀ x ∈ nodes, forth' x = forth x) (hback : ∀ x ∈ nodes, back' x = back x) :
    Linked forth' back' before nodes after := by
  induction nodes generalizing before with
  | nil => trivial
  | cons x rest ih =>
      rcases h with ⟨hb, hf, hrest⟩
      refine ⟨(hback x List.mem_cons_self).trans hb, (hforth x List.mem_cons_self).trans hf, ?_⟩
      exact ih hrest (fun y hy => hforth y (List.mem_cons_of_mem x hy))
        fun y hy => hback y (List.mem_cons_of_mem x hy)

/-- A list is linked when both of its parts are, each with the other as its neighbour. -/
theorem append_iff : Linked forth back before (left ++ right) after ↔
    Linked forth back before left (right.head?.or after) ∧
      Linked forth back (left.getLast?.or before) right after := by
  induction left generalizing before with
  | nil => simp [Linked]
  | cons x rest ih =>
      have hlast : (x :: rest).getLast?.or before = rest.getLast?.or (some x) := by
        cases hrest : rest.getLast? <;> simp [List.getLast?_cons, hrest]
      simp only [List.cons_append, Linked, ih, hlast, List.head?_append, Option.or_assoc,
        and_assoc]

theorem cons_iff : Linked forth back before (node :: right) after ↔
    back node = before ∧ forth node = right.head?.or after ∧
      Linked forth back (some node) right after := Iff.rfl

theorem setForth (h : Linked forth back before nodes after) (hnodup : nodes.Nodup)
    (link : Option Nat) :
    Linked (setLinkAt forth nodes.getLast? link) back before nodes link := by
  rcases nodes.eq_nil_or_concat with rfl | ⟨init, last, rfl⟩
  · trivial
  · rw [List.concat_eq_append] at h hnodup ⊢
    have hlast : last ∉ init := by
      have hsplit := List.nodup_append.mp hnodup
      exact fun hmem => hsplit.2.2 last hmem last List.mem_cons_self rfl
    rcases append_iff.mp h with ⟨hinit, hb, -, -⟩
    rw [List.getLast?_concat]
    have hend : setLinkAt forth (some last) link last = link := Function.update_self ..
    refine append_iff.mpr ⟨?_, hb, hend, trivial⟩
    refine hinit.congr (fun x hx => setLinkAt_of_notMem ?_) fun _ _ => rfl
    intro hmem
    cases hmem
    exact hlast hx

theorem setBack (h : Linked forth back before nodes after) (hnodup : nodes.Nodup)
    (link : Option Nat) :
    Linked forth (setLinkAt back nodes.head? link) link nodes after := by
  cases nodes with
  | nil => trivial
  | cons first rest =>
      rcases h with ⟨-, hf, hrest⟩
      refine ⟨Function.update_self .., hf, ?_⟩
      refine hrest.congr (fun _ _ => rfl) fun x hx => setLinkAt_of_notMem ?_
      intro hmem
      cases hmem
      exact (List.nodup_cons.mp hnodup).1 hx

/-- A node leaves a list when its neighbours are linked to each other. -/
theorem remove (h : Linked forth back none (left ++ node :: right) none)
    (hnodup : (left ++ node :: right).Nodup) :
    Linked (setLinkAt forth left.getLast? right.head?)
      (setLinkAt back right.head? left.getLast?) none (left ++ right) none := by
  rcases List.nodup_append.mp hnodup with ⟨hl, hr, hdisjoint⟩
  rcases append_iff.mp h with ⟨hleft, -, -, hright⟩
  have hapart : ∀ x ∈ left, x ∉ right := fun x hx hmem =>
    hdisjoint x hx x (List.mem_cons_of_mem node hmem) rfl
  rw [append_iff, Option.or_none, Option.or_none]
  constructor
  · refine (hleft.setForth hl right.head?).congr (fun _ _ => rfl) fun x hx => ?_
    exact setLinkAt_of_notMem fun hmem => hapart x hx (List.mem_of_mem_head? hmem)
  · refine (hright.setBack (List.nodup_cons.mp hr).2 left.getLast?).congr (fun x hx => ?_)
      fun _ _ => rfl
    exact setLinkAt_of_notMem fun hmem => hapart x (List.mem_of_mem_getLast? hmem) hx

/-- A node enters a list when it is linked to its neighbours, and they to it. -/
theorem insert (h : Linked forth back none (left ++ right) none)
    (hnodup : (left ++ node :: right).Nodup) :
    Linked (setLinkAt (Function.update forth node right.head?) left.getLast? (some node))
      (setLinkAt (Function.update back node left.getLast?) right.head? (some node))
      none (left ++ node :: right) none := by
  rcases List.nodup_append.mp hnodup with ⟨hl, hr, hdisjoint⟩
  rcases List.nodup_cons.mp hr with ⟨hnode, hr⟩
  rcases append_iff.mp h with ⟨hleft, hright⟩
  have hapart : ∀ x ∈ left, x ≠ node ∧ x ∉ right := fun x hx =>
    ⟨hdisjoint x hx node List.mem_cons_self,
      fun hmem => hdisjoint x hx x (List.mem_cons_of_mem node hmem) rfl⟩
  rw [append_iff, cons_iff, Option.or_none, Option.or_none, Option.or_none]
  refine ⟨?_, ?_, ?_, ?_⟩
  · refine (hleft.setForth hl (some node)).congr (fun x hx => ?_) fun x hx => ?_
    · by_cases hlast : x ∈ left.getLast?
      · rw [Option.mem_def] at hlast
        simp [hlast, setLinkAt]
      · rw [setLinkAt_of_notMem hlast, setLinkAt_of_notMem hlast,
          Function.update_of_ne (hapart x hx).1]
    · rw [setLinkAt_of_notMem fun hmem => (hapart x hx).2 (List.mem_of_mem_head? hmem),
        Function.update_of_ne (hapart x hx).1]
  · rw [setLinkAt_of_notMem fun hmem => hnode (List.mem_of_mem_head? hmem)]
    exact Function.update_self node _ back
  · rw [setLinkAt_of_notMem fun hmem =>
      (hapart node (List.mem_of_mem_getLast? hmem)).1 rfl]
    exact Function.update_self node _ forth
  · refine (hright.setBack hr (some node)).congr (fun x hx => ?_) fun x hx => ?_
    · have hne : x ≠ node := fun heq => hnode (heq ▸ hx)
      rw [setLinkAt_of_notMem fun hmem => (hapart x (List.mem_of_mem_getLast? hmem)).2 hx,
        Function.update_of_ne hne]
    · have hne : x ≠ node := fun heq => hnode (heq ▸ hx)
      by_cases hfirst : x ∈ right.head?
      · rw [Option.mem_def] at hfirst
        simp [hfirst, setLinkAt]
      · rw [setLinkAt_of_notMem hfirst, setLinkAt_of_notMem hfirst, Function.update_of_ne hne]

/-- Links that lead on from the first node determine the list. -/
theorem unique {nodes' : List Nat} {before' : Option Nat}
    (h : Linked forth back before nodes none) (h' : Linked forth back before' nodes' none)
    (hhead : nodes'.head? = nodes.head?) : nodes' = nodes := by
  induction nodes generalizing nodes' before before' with
  | nil => exact List.head?_eq_none_iff.mp hhead
  | cons first rest ih =>
      obtain ⟨rest', rfl⟩ := List.head?_eq_some_iff.mp hhead
      rcases h with ⟨-, hforth, hrest⟩
      rcases h' with ⟨-, hforth', hrest'⟩
      rw [Option.or_none] at hforth hforth'
      exact congrArg (first :: ·) (ih hrest hrest' (hforth'.symm.trans hforth))

theorem back_of_mem_head? {before after : Option Nat} (h : Linked forth back before nodes after)
    {x : Nat} (hx : x ∈ nodes.head?) : back x = before := by
  cases nodes with
  | nil => cases hx
  | cons first rest =>
      cases hx
      exact h.1

theorem isChain_back (h : Linked forth back before nodes after) :
    nodes.IsChain fun x y => back y = some x := by
  induction nodes generalizing before with
  | nil => exact .nil
  | cons first rest ih =>
      rcases h with ⟨-, -, hrest⟩
      exact List.isChain_cons.mpr ⟨fun y hy => hrest.back_of_mem_head? hy, ih hrest⟩

end Linked

end CanNode
