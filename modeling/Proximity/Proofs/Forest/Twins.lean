import Mathlib
import Proximity.Proofs.Forest.Asking
import Proximity.Proofs.Tree.Alike

/-!
# Forests with the same points in every slot

What a forest answers and what becomes of it depends on the points alive in each slot and on the
counter, not on the trees over these points nor on points removed before. Forests that agree so far
stay together: an insertion merges the same points in both and fails in both for the same reason,
since their trees are built alike, and a removal strikes a point from the same slot.
-/

namespace Proximity

variable {N D : Type}

namespace Forest

/-- The points alive in a slot. -/
def alive (forest : Forest N D) (slot : Nat) : List Nat :=
  (forest.plot? slot).elim [] Plot.livePoints

section Alive

variable {forest : Forest N D} {slot index : Nat}

/-- A slot houses the points that are alive in it. -/
theorem mem_alive : index ∈ forest.alive slot ↔ forest.Houses slot index := by
  rw [alive, Houses]
  cases forest.plot? slot <;> simp

/-- What is alive in a slot is read off the plot that stands there. -/
theorem alive_of_lt (h : slot < forest.slots.length) :
    forest.alive slot = (forest.slots[slot]).elim [] Plot.livePoints := by
  rw [alive, plot?, List.getElem?_eq_getElem h]
  rfl

/-- Nothing is alive beyond the last slot. -/
theorem alive_of_ge (h : forest.slots.length ≤ slot) : forest.alive slot = [] := by
  rw [alive, plot?, List.getElem?_eq_none h]
  rfl

/-- The points below a slot are listed slot by slot. -/
theorem pointsBelow_eq (forest : Forest N D) (slot : Nat) :
    forest.pointsBelow slot = (List.range slot).flatMap forest.alive := by
  induction slot with
  | zero => rfl
  | succ slot ih =>
    rw [List.range_succ, List.flatMap_append, ← ih, pointsBelow, List.take_add_one,
      List.flatMap_append, List.flatMap_singleton, alive, plot?]
    cases forest.slots[slot]? <;> simp [pointsBelow]

/-- All points alive are those below the end of the slots. -/
theorem live_eq_pointsBelow (forest : Forest N D) :
    forest.live = forest.pointsBelow forest.slots.length := by
  rw [live, pointsBelow, List.take_length]

/-- The sizes of the slots, by the points alive in them. -/
theorem Sound.sizes_eq_alive (h : forest.Sound) : forest.sizes =
    (List.range forest.slots.length).map fun slot => (forest.alive slot).length := by
  rw [h.sizes_eq]
  refine List.ext_getElem (by simp) fun slot hslot _ => ?_
  rw [List.length_map] at hslot
  simp [alive_of_lt hslot]

/-- After settling, the tree has all points of its slot and the slots below it are empty. -/
theorem alive_settle (forest : Forest N D) (slot other : Nat) (tree : Tree N) :
    (forest.settle slot tree).alive other =
      if other < slot then [] else if other = slot then tree.order.toList
      else forest.alive other := by
  rw [← Plot.livePoints_ofTree tree]
  exact elim_plot?_settle forest slot other tree [] Plot.livePoints

/-- Removing a point strikes it from the points alive. -/
theorem Plot.livePoints_remove (plot : Plot N) (index : Nat) :
    (plot.remove index).livePoints = plot.livePoints.filter (· ≠ index) := by
  rw [Plot.livePoints, Plot.livePoints, List.filter_filter]
  refine List.filter_congr fun other _ => ?_
  rw [Bool.eq_iff_iff]
  simp [Plot.isLive, Plot.remove]

/-- A removal takes its point from the slot that it is alive in. -/
theorem Sound.alive_remove (h : forest.Sound) (index slot : Nat) :
    (forest.remove index).1.alive slot = (forest.alive slot).filter (· ≠ index) := by
  have hkeep {slot : Nat} (habsent : ¬ forest.Houses slot index) :
      (forest.alive slot).filter (· ≠ index) = forest.alive slot := by
    refine List.filter_eq_self.mpr fun other hother => decide_eq_true ?_
    rintro rfl
    exact habsent (mem_alive.mp hother)
  rcases h.remove_cases index with ⟨habsent, heq⟩ | ⟨home, plot, hplot, hlive, heq⟩
  · rw [heq, hkeep]
    intro hhouse
    rw [(h.contains_iff index).mpr ⟨slot, hhouse⟩] at habsent
    nomatch habsent
  · rw [heq, alive, plot?_strike hplot]
    by_cases hhome : slot = home
    · rw [if_pos hhome, hhome, alive, hplot]
      exact Plot.livePoints_remove plot index
    · rw [if_neg hhome, hkeep]
      · rfl
      · exact fun hhouse => hhome (h.houses_unique hhouse ⟨plot, hplot, hlive⟩)

end Alive

/-- Whether two forests have counted as much and have the same points alive in every slot. -/
structure Twins (forest other : Forest N D) : Prop where
  dims_eq : other.dims = forest.dims
  options_eq : other.options = forest.options
  metric_eq : other.metric = forest.metric
  counter_eq : other.counter = forest.counter
  length_eq : other.slots.length = forest.slots.length
  alive : ∀ slot, (forest.alive slot).Perm (other.alive slot)

namespace Twins

variable {forest other : Forest N D}

/-- Twins house the same points in the same slots. -/
theorem houses_iff (h : forest.Twins other) {slot index : Nat} :
    forest.Houses slot index ↔ other.Houses slot index := by
  rw [← mem_alive, ← mem_alive, (h.alive slot).mem_iff]

/-- Twins contain the same points. -/
theorem contains_eq (h : forest.Twins other) (hsound : forest.Sound) (hsound' : other.Sound) :
    other.contains = forest.contains := by
  funext index
  rw [Bool.eq_iff_iff, hsound.contains_iff, hsound'.contains_iff]
  simp only [h.houses_iff]

/-- Twins rebuild the same points on a carry, though in another order. -/
theorem pointsBelow_perm (h : forest.Twins other) (slot : Nat) :
    (forest.pointsBelow slot).Perm (other.pointsBelow slot) := by
  rw [pointsBelow_eq, pointsBelow_eq]
  exact List.Perm.flatMap_left _ fun lower _ => h.alive lower

/-- Twins merge the same points when one more is inserted. -/
theorem merged_perm (h : forest.Twins other) (index : Nat) :
    (forest.merged index).Perm (other.merged index) := by
  rw [merged, merged, h.counter_eq]
  exact (h.pointsBelow_perm _).append_right [index]

/-- Twins have equally many points alive. -/
theorem size_eq (h : forest.Twins other) (hsound : forest.Sound) (hsound' : other.Sound) :
    other.size = forest.size := by
  rw [hsound.size_eq, hsound'.size_eq, live_eq_pointsBelow, live_eq_pointsBelow, h.length_eq]
  exact (h.pointsBelow_perm _).length_eq.symm

/-- Twins have equally many points alive in every slot. -/
theorem sizes_eq (h : forest.Twins other) (hsound : forest.Sound) (hsound' : other.Sound) :
    other.sizes = forest.sizes := by
  rw [hsound.sizes_eq_alive, hsound'.sizes_eq_alive, h.length_eq]
  exact List.map_congr_left fun slot _ => (h.alive slot).length_eq.symm

/-- Twins stay so when the same point is removed from both. -/
theorem remove (h : forest.Twins other) (hsound : forest.Sound) (hsound' : other.Sound)
    (index : Nat) : (forest.remove index).1.Twins (other.remove index).1 := by
  have hfields {forest : Forest N D} (hsound : forest.Sound) :
      (forest.remove index).1.dims = forest.dims ∧
      (forest.remove index).1.options = forest.options ∧
      (forest.remove index).1.metric = forest.metric ∧
      (forest.remove index).1.counter = forest.counter ∧
      (forest.remove index).1.slots.length = forest.slots.length := by
    rcases hsound.remove_cases index with ⟨-, heq⟩ | ⟨slot, plot, -, -, heq⟩ <;> rw [heq]
    · exact ⟨rfl, rfl, rfl, rfl, rfl⟩
    · exact ⟨rfl, rfl, rfl, rfl, List.length_set⟩
  obtain ⟨hdims, hoptions, hmetric, hcounter, hlength⟩ := hfields hsound
  obtain ⟨hdims', hoptions', hmetric', hcounter', hlength'⟩ := hfields hsound'
  refine ⟨?_, ?_, ?_, ?_, ?_, fun slot => ?_⟩
  · rw [hdims, hdims', h.dims_eq]
  · rw [hoptions, hoptions', h.options_eq]
  · rw [hmetric, hmetric', h.metric_eq]
  · rw [hcounter, hcounter', h.counter_eq]
  · rw [hlength, hlength', h.length_eq]
  · rw [hsound.alive_remove, hsound'.alive_remove]
    exact (h.alive slot).filter _

/-- Twins stay so when trees over the same points are settled in both. -/
theorem settle (h : forest.Twins other) (slot : Nat) {tree tree' : Tree N}
    (hperm : tree.order.toList.Perm tree'.order.toList) :
    (forest.settle slot tree).Twins (other.settle slot tree') := by
  refine ⟨h.dims_eq, h.options_eq, h.metric_eq, congrArg (· + 1) h.counter_eq, ?_, fun place => ?_⟩
  · rw [length_settle, length_settle, h.length_eq]
  · rw [alive_settle, alive_settle]
    split
    · exact .refl _
    split
    · exact hperm
    · exact h.alive place

variable [Coordinate N] [LawfulCoordinate N] {source : Source N}

/-- An insertion into both forests succeeds, and they stay together, or is refused by both for one
reason. -/
theorem insert (h : forest.Twins other) (hserves : forest.Serves source)
    (hserves' : other.Serves source) (hfinite : source.Finite) (index : Nat) :
    Outcome.Both Twins (forest.insert source index) (other.insert source index) := by
  have hrequire : other.requireInsertable source index = forest.requireInsertable source index := by
    rw [requireInsertable, requireInsertable, requireSource, requireSource, h.dims_eq,
      h.contains_eq hserves.sound hserves'.sound, h.counter_eq]
  unfold Forest.insert
  rw [hrequire, h.counter_eq, h.options_eq]
  cases hcheck : forest.requireInsertable source index with
  | error cause => exact .error cause
  | ok _ =>
  have hinsertable := requireInsertable_eq_ok.mp hcheck
  have hpoints (point) (hpoint : point ∈ forest.merged index) : source.FiniteAt point :=
    hfinite point (hserves.merged_lt hinsertable.lt_size hpoint)
  have hperm := h.merged_perm index
  have halike := Source.Alike.of_perm hpoints hperm
  refine (Tree.build_alike halike none nofun).bind fun tree tree' htree htree' _ => ?_
  refine .ok (h.settle _ ?_)
  exact (Tree.build_eq_ok htree).order_perm.trans
    (hperm.trans (Tree.build_eq_ok htree').order_perm.symm)

end Twins

end Forest

end Proximity
