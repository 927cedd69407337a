import CanNode.Proofs.Heap.Audit
import CanNode.Proofs.Heap.Ledger

/-!
# The layout is canonical

Fragments that tile a range with no two free neighbours are determined by the allocated ones
among them.  So the fragments of a heap depend on its capacity and its live blocks only, not on
the run that led to them, and neither does the answer to whether a request will be served.
-/

namespace CanNode

namespace Tiling

variable {start stop : Nat} {fragments others rest : List Fragment} {f : Fragment}

/-- The fragments in front of an allocated one are free, so in a coalesced tiling there is one at
most, and it ends where the allocated one begins. -/
theorem free_size_eq (h : Tiling start (f :: rest) stop) (hcoalesced : Coalesced (f :: rest))
    (hfree : f.used = false) :
    start + f.size = ((rest.filter (·.used)).head?.map (·.offset)).getD stop := by
  rcases h with ⟨-, -, -, hrest⟩
  cases rest with
  | nil => exact hrest
  | cons g tail =>
      have hborder := (List.isChain_cons.mp hcoalesced).1 g rfl
      have hused := hborder.resolve_left (by simp [hfree])
      rw [List.filter_cons_of_pos hused]
      exact hrest.1.symm

/-- A coalesced tiling is determined by its allocated fragments. -/
theorem eq_of_filter_used_eq (h : Tiling start fragments stop) (h' : Tiling start others stop)
    (hcoalesced : Coalesced fragments) (hcoalesced' : Coalesced others)
    (hused : fragments.filter (·.used) = others.filter (·.used)) : fragments = others := by
  induction fragments generalizing start others with
  | nil =>
      cases others with
      | nil => rfl
      | cons g rest =>
          have hle := h'.2.2.2.le
          have hpos := h'.2.1
          have hstop : start = stop := h
          omega
  | cons f rest ih =>
      cases others with
      | nil =>
          have hle := h.2.2.2.le
          have hpos := h.2.1
          have hstop : start = stop := h'
          omega
      | cons g rest' =>
          have hoffset : f.offset = g.offset := h.1.trans h'.1.symm
          have hfirst : f = g := by
            by_cases hf : f.used = true
            · have hmem : f ∈ (g :: rest').filter (·.used) := hused ▸ by simp [hf]
              exact h'.eq_of_offset_eq (List.mem_filter.mp hmem).1 List.mem_cons_self hoffset
            by_cases hg : g.used = true
            · have hmem : g ∈ (f :: rest).filter (·.used) := hused ▸ by simp [hg]
              exact h.eq_of_offset_eq List.mem_cons_self (List.mem_filter.mp hmem).1 hoffset
            -- both are free, so both end where the first allocated fragment begins
            rw [List.filter_cons_of_neg hf, List.filter_cons_of_neg hg] at hused
            have hsize := h.free_size_eq hcoalesced (Bool.eq_false_iff.mpr hf)
            have hsize' := h'.free_size_eq hcoalesced' (Bool.eq_false_iff.mpr hg)
            rw [hused] at hsize
            have hsame : f.size = g.size := Nat.add_left_cancel (hsize.trans hsize'.symm)
            have hmark : f.used = g.used :=
              (Bool.eq_false_iff.mpr hf).trans (Bool.eq_false_iff.mpr hg).symm
            cases f
            cases g
            simp_all
          subst hfirst
          have hrest : rest.filter (·.used) = rest'.filter (·.used) := by
            by_cases hf : f.used = true <;> simpa [hf] using hused
          rw [ih h.2.2.2 h'.2.2.2 (List.isChain_cons.mp hcoalesced).2
            (List.isChain_cons.mp hcoalesced').2 hrest]

theorem pairwise_lt (h : Tiling start fragments stop) :
    fragments.Pairwise fun f g => f.offset < g.offset := by
  induction fragments generalizing start with
  | nil => exact List.Pairwise.nil
  | cons f rest ih =>
      rcases h with ⟨hoffset, hpos, -, hrest⟩
      refine List.pairwise_cons.mpr ⟨fun g hg => ?_, ih hrest⟩
      have hbounds := hrest.bounds hg
      omega

theorem eq_of_filter_used_perm (h : Tiling start fragments stop) (h' : Tiling start others stop)
    (hcoalesced : Coalesced fragments) (hcoalesced' : Coalesced others)
    (hused : (fragments.filter (·.used)).Perm (others.filter (·.used))) : fragments = others := by
  refine h.eq_of_filter_used_eq h' hcoalesced hcoalesced' ?_
  refine List.Perm.eq_of_pairwise ?_ (h.pairwise_lt.filter _) (h'.pairwise_lt.filter _) hused
  intro f g _ _ hlt hgt
  exact absurd hgt (Nat.lt_asymm hlt)

end Tiling

namespace Heap

def Serves (heap : Heap) (amount : Nat) : Prop :=
  ∃ block heap', heap.allocate amount = .ok (some block, heap')

/-- A request is served exactly when some free fragment is large enough for it. -/
theorem Sound.serves_iff {heap : Heap} {fragments : List Fragment} {chains : Chains}
    (h : heap.Sound fragments chains) {amount : Nat} : heap.Serves amount ↔
      0 < amount ∧ ∃ f ∈ fragments, f.used = false ∧ fragmentSize amount ≤ f.size := by
  constructor
  · intro hserves
    rcases hserves with ⟨block, heap', hrun⟩
    have hpos : 0 < amount := by
      apply Nat.pos_of_ne_zero
      intro heq
      subst heq
      cases hrun
    refine ⟨hpos, ?_⟩
    by_contra hnone
    have hsmall : ∀ f ∈ fragments, f.used = false → f.size < fragmentSize amount :=
      fun f hf hfree => Nat.lt_of_not_le fun hle => hnone ⟨f, hf, hfree, hle⟩
    rw [h.allocate_none hpos hsmall] at hrun
    cases hrun
  · intro hserves
    rcases hserves with ⟨hpos, hsome⟩
    rcases h.allocate_some hpos hsome with ⟨-, x, -, heap', -, -, -, hrun, -⟩
    exact ⟨_, heap', hrun⟩

end Heap

namespace Ledger

structure SameLayout (left right : Ledger) : Prop where
  walk : ∃ fragments,
    left.heap.walk = .ok (some fragments) ∧ right.heap.walk = .ok (some fragments)
  serves : ∀ amount, left.heap.Serves amount ↔ right.heap.Serves amount
  allocated : left.heap.usage.allocated = right.heap.usage.allocated
  live : left.heap.usage.live = right.heap.usage.live

variable {ledger ledger' next : Ledger} {fragments fragments' : List Fragment}
  {chains chains' : Chains} {blocks : List Block}

namespace Sound

/-- The layout is a function of the capacity and the live blocks. -/
theorem sameLayout (h : ledger.Sound fragments chains) (h' : ledger'.Sound fragments' chains')
    (hcapacity : ledger.heap.usage.capacity = ledger'.heap.usage.capacity)
    (hpos : 0 < ledger.heap.usage.capacity) (hlive : ledger.live.Perm ledger'.live) :
    ledger.SameLayout ledger' := by
  have hused := (h.blocks.trans (hlive.map Block.fragment)).trans h'.blocks.symm
  have htiling := h.heap.shaped.tiled.tiling
  rw [hcapacity] at htiling
  obtain rfl : fragments = fragments' := htiling.eq_of_filter_used_perm
    h'.heap.shaped.tiled.tiling h.heap.coalesced h'.heap.coalesced hused
  refine ⟨⟨fragments, h.heap.walk_eq hpos, h'.heap.walk_eq (hcapacity ▸ hpos)⟩, fun amount => ?_,
    ?_, ?_⟩
  · rw [h.heap.serves_iff, h'.heap.serves_iff]
  · rw [h.heap.allocated, h'.heap.allocated]
  · rw [h.heap.live, h'.heap.live]

/-- Freeing live blocks one after the other takes them from the live ones. -/
theorem run_frees (h : ledger.Sound fragments chains) (hnodup : blocks.Nodup)
    (hlive : blocks ⊆ ledger.live) :
    ∃ last, ledger.run (blocks.map .free) = .ok last ∧ last.live = ledger.live.diff blocks ∧
      last.heap.usage.capacity = ledger.heap.usage.capacity ∧
      ∃ fragments chains, last.Sound fragments chains := by
  induction blocks generalizing ledger fragments chains with
  | nil => exact ⟨ledger, rfl, rfl, rfl, fragments, chains, h⟩
  | cons block rest ih =>
      rcases List.nodup_cons.mp hnodup with ⟨hblock, hrest⟩
      obtain ⟨heap', hrun, -, -, ⟨fragments', chains', hnext⟩, hcapacity, -⟩ :=
        h.free (hlive List.mem_cons_self)
      have hsub : rest ⊆ ledger.live.erase block := by
        intro other hother
        have hne : other ≠ block := fun heq => hblock (heq ▸ hother)
        rw [List.mem_erase_of_ne hne]
        exact hlive (List.mem_cons_of_mem block hother)
      rcases ih hnext hrest hsub with ⟨last, hrun', hlast, hcapacity', hsound⟩
      refine ⟨last, ?_, ?_, hcapacity'.trans hcapacity, hsound⟩
      · rw [List.map_cons, Ledger.run, perform_free hrun]
        exact hrun'
      · rw [hlast, List.diff_cons]

/-- Without live blocks there is nothing but one free fragment. -/
theorem eq_whole_of_live_eq_nil (h : ledger.Sound fragments chains) {arena : Arena}
    (hcapacity : ledger.heap.usage.capacity = Heap.usable arena) (hpos : 0 < Heap.usable arena)
    (hlive : ledger.live = []) : fragments = [Heap.wholeFragment arena] := by
  have hblocks := h.blocks
  rw [hlive] at hblocks
  have htiling := h.heap.shaped.tiled.tiling
  rw [hcapacity] at htiling
  have hwhole : Tiling 0 [Heap.wholeFragment arena] (Heap.usable arena) :=
    ⟨rfl, hpos, Nat.dvd_mul_left .., Nat.zero_add _⟩
  exact htiling.eq_of_filter_used_perm hwhole h.heap.coalesced (List.isChain_singleton _) hblocks

end Sound

/-- The layout of a heap does not tell by which run it came about.  Two heaps of one capacity
with the same live blocks have the same layout; so have two heaps after the same blocks of one
were freed in different orders; and a heap without live blocks is one free fragment, which
serves every request that the capacity allows for. -/
theorem layout_canonical :
    (∀ arena arena' ledger ledger', Reachable arena ledger → Reachable arena' ledger' →
      Heap.usable arena = Heap.usable arena' →
      (∀ block, block ∈ ledger.live ↔ block ∈ ledger'.live) → ledger.SameLayout ledger') ∧
    (∀ arena ledger, Reachable arena ledger → ∀ blocks blocks' : List Block,
      blocks.Nodup → blocks ⊆ ledger.live → blocks.Perm blocks' →
      ∃ last last', ledger.run (blocks.map .free) = .ok last ∧
        ledger.run (blocks'.map .free) = .ok last' ∧ last.SameLayout last') ∧
    ∀ arena ledger, Reachable arena ledger → ledger.live = [] →
      ledger.heap.walk = .ok (some [⟨0, Heap.usable arena, false⟩]) ∧
      ∀ amount, 0 < amount → 2 ^ Nat.clog 2 (amount + headerSize) ≤ Heap.usable arena →
        ledger.heap.Serves amount := by
  refine ⟨fun arena arena' ledger ledger' h h' harena hlive => ?_,
    fun arena ledger h blocks blocks' hnodup hsub hperm => ?_, fun arena ledger h hlive => ?_⟩
  · rcases h.sound with ⟨⟨fragments, chains, hsound⟩, hcapacity, hpos⟩
    rcases h'.sound with ⟨⟨fragments', chains', hsound'⟩, hcapacity', -⟩
    refine hsound.sameLayout hsound' ?_ (hcapacity ▸ hpos)
      ((List.perm_ext_iff_of_nodup hsound.nodup hsound'.nodup).mpr hlive)
    rw [hcapacity, hcapacity', harena]
  · rcases h.sound with ⟨⟨fragments, chains, hsound⟩, hcapacity, hpos⟩
    rcases hsound.run_frees hnodup hsub with ⟨last, hrun, hlast, hcap, _, _, hsoundLast⟩
    obtain ⟨last', hrun', hlast', hcap', _, _, hsoundLast'⟩ :=
      hsound.run_frees (hperm.nodup_iff.mp hnodup) fun block hblock =>
        hsub (hperm.mem_iff.mpr hblock)
    refine ⟨last, last', hrun, hrun', hsoundLast.sameLayout hsoundLast' (hcap.trans hcap'.symm) ?_
      ?_⟩
    · rwa [hcap, hcapacity]
    · rw [hlast, hlast', hperm.diff_left ledger.live]
  · rcases h.sound with ⟨⟨fragments, chains, hsound⟩, hcapacity, hpos⟩
    obtain rfl := hsound.eq_whole_of_live_eq_nil hcapacity hpos hlive
    refine ⟨hsound.heap.walk_eq (hcapacity ▸ hpos), fun amount hamount hfits => ?_⟩
    refine hsound.heap.serves_iff.mpr ⟨hamount, _, List.mem_singleton_self _, rfl, ?_⟩
    rwa [Heap.fragmentSize_eq_two_pow]

private def leftHistory : List Request :=
  [.allocate 8, .allocate 16, .allocate 12, .write ⟨32, 16⟩ 0 [1, 2, 3], .free ⟨0, 8⟩]

private def rightHistory : List Request :=
  [.allocate 40, .allocate 12, .free ⟨0, 40⟩, .allocate 1, .allocate 16, .free ⟨0, 1⟩]

private def leftLedger : Ledger :=
  (replay (Arena.filled 96 0xAA) leftHistory).get (by decide +kernel)

private def rightLedger : Ledger :=
  (replay (Arena.filled 100 0x55) rightHistory).get (by decide +kernel)

/-- Two histories, on arenas that hold different bytes, with the same two blocks left. -/
theorem layout_canonical_sample :
    Reachable (Arena.filled 96 0xAA) leftLedger ∧ Reachable (Arena.filled 100 0x55) rightLedger ∧
      leftLedger.live = [⟨64, 12⟩, ⟨32, 16⟩] ∧ rightLedger.live = [⟨32, 16⟩, ⟨64, 12⟩] ∧
      leftLedger.SameLayout rightLedger := by
  have hleft : Reachable (Arena.filled 96 0xAA) leftLedger := reachable_replay _
  have hright : Reachable (Arena.filled 100 0x55) rightLedger := reachable_replay _
  have hleftLive : leftLedger.live = [⟨64, 12⟩, ⟨32, 16⟩] := by decide +kernel
  have hrightLive : rightLedger.live = [⟨32, 16⟩, ⟨64, 12⟩] := by decide +kernel
  refine ⟨hleft, hright, hleftLive, hrightLive, ?_⟩
  refine layout_canonical.1 _ _ _ _ hleft hright ?_ fun block => ?_
  · simp [Heap.usable, minimumFragment]
  · rw [hleftLive, hrightLive]
    exact (List.Perm.swap _ _ []).mem_iff

end Ledger

end CanNode
