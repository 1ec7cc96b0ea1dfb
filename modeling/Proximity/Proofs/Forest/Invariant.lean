import Mathlib
import Proximity.Proofs.Forest.Directory
import Proximity.Proofs.Tree.Growth

/-!
# A forest is a set of points

Every point alive has one home: the slot that the directory names for it, where the tree holds the
point and it was not removed since. Trees hold no point twice, only points of a tree are removed
from it, and a slot is occupied only if its digit of the counter is set. Inserting and removing
keep all this, and so does reading a forest from any bytes that are accepted.
-/

namespace Proximity

variable {N D : Type}

namespace Plot

/-- Whether a tree holds no point twice, and what was removed is part of it and no point twice. -/
structure Sound (plot : Plot N) : Prop where
  nodup : plot.tree.order.toList.Nodup
  removed_nodup : plot.removed.Nodup
  removed_subset : plot.removed ⊆ plot.tree.order.toList

/-- A point of a tree is alive until it is removed. -/
theorem mem_livePoints {plot : Plot N} {index : Nat} :
    index ∈ plot.livePoints ↔ index ∈ plot.tree.order ∧ index ∉ plot.removed := by
  rw [livePoints, List.mem_filter, Array.mem_toList_iff, isLive, Bool.not_eq_true',
    List.contains_eq_mem, decide_eq_false_iff_not]

@[simp] theorem livePoints_ofTree (tree : Tree N) :
    (ofTree tree).livePoints = tree.order.toList :=
  List.filter_eq_self.mpr fun _ _ => rfl

/-- A plot of a new tree is sound if the tree repeats no index. -/
theorem sound_ofTree {tree : Tree N} (h : tree.order.toList.Nodup) : (ofTree tree).Sound :=
  ⟨h, .nil, List.nil_subset _⟩

namespace Sound

variable {plot : Plot N}

/-- No point is alive twice in one plot. -/
theorem livePoints_nodup (h : plot.Sound) : plot.livePoints.Nodup := h.nodup.filter _

/-- The points of a tree are alive or removed. -/
theorem length_livePoints (h : plot.Sound) :
    plot.livePoints.length + plot.removed.length = plot.tree.size := by
  have hperm : (plot.livePoints ++ plot.removed).Perm plot.tree.order.toList := by
    rw [List.perm_ext_iff_of_nodup _ h.nodup]
    · intro index
      rw [List.mem_append, mem_livePoints, Array.mem_toList_iff]
      constructor
      · rintro (hlive | hremoved)
        · exact hlive.1
        · exact Array.mem_toList_iff.mp (h.removed_subset hremoved)
      · intro hindex
        by_cases hremoved : index ∈ plot.removed
        · exact .inr hremoved
        · exact .inl ⟨hindex, hremoved⟩
    · refine List.nodup_append.mpr ⟨h.livePoints_nodup, h.removed_nodup, ?_⟩
      rintro index hlive other hremoved rfl
      exact (mem_livePoints.mp hlive).2 hremoved
  have hlength := hperm.length_eq
  rwa [List.length_append, Array.length_toList] at hlength

/-- The count of points alive never falls below zero. -/
theorem size_eq (h : plot.Sound) : plot.size = plot.livePoints.length := by
  have hlength := h.length_livePoints
  rw [size]
  omega

/-- A plot stays sound when a point that is alive is removed. -/
theorem remove (h : plot.Sound) {index : Nat} (hlive : index ∈ plot.livePoints) :
    (plot.remove index).Sound := by
  obtain ⟨hindex, habsent⟩ := mem_livePoints.mp hlive
  refine ⟨h.nodup, h.removed_nodup.insert, ?_⟩
  intro other hother
  rcases List.mem_insert_iff.mp hother with rfl | hother
  · exact Array.mem_toList_iff.mpr hindex
  · exact h.removed_subset hother

end Sound

/-- Removing a point leaves the others alive. -/
theorem mem_livePoints_remove {plot : Plot N} {index other : Nat} :
    other ∈ (plot.remove index).livePoints ↔ other ≠ index ∧ other ∈ plot.livePoints := by
  rw [mem_livePoints, mem_livePoints]
  show other ∈ plot.tree.order ∧ other ∉ plot.removed.insert index ↔ _
  rw [List.mem_insert_iff, not_or]
  tauto

end Plot

namespace Forest

/-- All points alive, slot by slot. -/
def live (forest : Forest N D) : List Nat :=
  forest.slots.flatMap fun plot => plot.elim [] Plot.livePoints

/-- The points alive in the slots above one. -/
def pointsAbove (forest : Forest N D) (slot : Nat) : List Nat :=
  (forest.slots.drop (slot + 1)).flatMap fun plot => plot.elim [] Plot.livePoints

/-- Whether a slot is the home of a point: its tree holds the point, which was not removed. -/
def Houses (forest : Forest N D) (slot index : Nat) : Prop :=
  ∃ plot, forest.plot? slot = some plot ∧ index ∈ plot.livePoints

/-- What holds of every forest. -/
structure Sound (forest : Forest N D) : Prop where
  plot : ∀ slot plot, forest.plot? slot = some plot → plot.Sound
  counted : ∀ slot plot, forest.plot? slot = some plot → forest.counter.testBit slot = true
  home : ∀ index slot, forest.directory.slot? index = some slot ↔ forest.Houses slot index
  size_eq : forest.size = forest.live.length
  counter_le : forest.counter ≤ maxWord64

/-- A slot has a plot exactly if one stands in its place. -/
theorem plot?_eq_some {forest : Forest N D} {slot : Nat} {plot : Plot N} :
    forest.plot? slot = some plot ↔ forest.slots[slot]? = some (some plot) :=
  Option.join_eq_some_iff

/-- The points alive are those below a slot, those in it and those above it. -/
theorem live_eq (forest : Forest N D) (slot : Nat) : forest.live =
    forest.pointsBelow slot ++
      ((forest.plot? slot).elim [] Plot.livePoints ++ forest.pointsAbove slot) := by
  have hrest : (forest.slots.drop slot).flatMap (fun plot => plot.elim [] Plot.livePoints) =
      (forest.plot? slot).elim [] Plot.livePoints ++ forest.pointsAbove slot := by
    by_cases hlt : slot < forest.slots.length
    · rw [List.drop_eq_getElem_cons hlt, List.flatMap_cons, plot?, List.getElem?_eq_getElem hlt]
      rfl
    · rw [pointsAbove, plot?, List.getElem?_eq_none (Nat.le_of_not_lt hlt),
        List.drop_eq_nil_of_le (Nat.le_of_not_lt hlt), List.drop_eq_nil_of_le (by omega)]
      rfl
  rw [← hrest, pointsBelow, ← List.flatMap_append, List.take_append_drop]
  rfl

/-- A point is alive exactly if some slot houses it. -/
theorem mem_live {forest : Forest N D} {index : Nat} :
    index ∈ forest.live ↔ ∃ slot, forest.Houses slot index := by
  rw [live, List.mem_flatMap]
  constructor
  · rintro ⟨plot, hplot, hindex⟩
    cases plot with
    | none => exact absurd hindex List.not_mem_nil
    | some plot =>
      obtain ⟨slot, hslot⟩ := List.getElem?_of_mem hplot
      exact ⟨slot, plot, plot?_eq_some.mpr hslot, hindex⟩
  · rintro ⟨slot, plot, hplot, hindex⟩
    exact ⟨some plot, List.mem_of_getElem? (plot?_eq_some.mp hplot), hindex⟩

/-- The points below a slot are those that a lower slot houses. -/
theorem mem_pointsBelow {forest : Forest N D} {slot index : Nat} :
    index ∈ forest.pointsBelow slot ↔ ∃ lower < slot, forest.Houses lower index := by
  rw [pointsBelow, List.mem_flatMap]
  constructor
  · rintro ⟨plot, hplot, hindex⟩
    cases plot with
    | none => exact absurd hindex List.not_mem_nil
    | some plot =>
      obtain ⟨lower, hlower⟩ := List.getElem?_of_mem hplot
      rw [List.getElem?_take] at hlower
      split at hlower
      · next hlt => exact ⟨lower, hlt, plot, plot?_eq_some.mpr hlower, hindex⟩
      · nomatch hlower
  · rintro ⟨lower, hlt, plot, hplot, hindex⟩
    refine ⟨some plot, List.mem_of_getElem? (i := lower) ?_, hindex⟩
    rw [List.getElem?_take, if_pos hlt]
    exact plot?_eq_some.mp hplot

/-- An insertion merges the new point with those at home below the slot where the carry stops. -/
theorem mem_merged {forest : Forest N D} {index other : Nat} : other ∈ forest.merged index ↔
    other = index ∨ ∃ lower < carry 64 forest.counter, forest.Houses lower other := by
  rw [merged, List.mem_append, List.mem_singleton, mem_pointsBelow, or_comm]

/-- An insertion hands over the points below the slot it carries to and one more. -/
@[simp] theorem length_merged (forest : Forest N D) (index : Nat) : (forest.merged index).length =
    (forest.pointsBelow (carry 64 forest.counter)).length + 1 := by
  rw [merged, List.length_append, List.length_singleton]

namespace Sound

variable {forest : Forest N D}

/-- The directory has a slot for an index exactly if some slot houses it. -/
theorem contains_iff (h : forest.Sound) (index : Nat) :
    forest.contains index = true ↔ ∃ slot, forest.Houses slot index := by
  rw [contains, Directory.contains_iff]
  exact exists_congr fun slot => h.home index slot

/-- No point has two homes. -/
theorem houses_unique (h : forest.Sound) {index slot other : Nat}
    (hslot : forest.Houses slot index) (hother : forest.Houses other index) : slot = other := by
  rw [← h.home] at hslot hother
  exact Option.some.inj (hslot.symm.trans hother)

/-- No point is alive twice. -/
theorem live_nodup (h : forest.Sound) : forest.live.Nodup := by
  rw [live, List.nodup_flatMap]
  constructor
  · intro plot hplot
    cases plot with
    | none => exact .nil
    | some plot =>
      obtain ⟨slot, hslot⟩ := List.getElem?_of_mem hplot
      exact (h.plot slot plot (plot?_eq_some.mpr hslot)).livePoints_nodup
  · rw [List.pairwise_iff_getElem]
    intro i j hi hj hlt index hindex hindex'
    have hhouse (slot) (hslot : slot < forest.slots.length)
        (hin : index ∈ (forest.slots[slot]).elim [] Plot.livePoints) :
        forest.Houses slot index := by
      cases hplot : forest.slots[slot] with
      | none =>
        rw [hplot] at hin
        exact absurd hin List.not_mem_nil
      | some plot =>
        rw [hplot] at hin
        exact ⟨plot, plot?_eq_some.mpr (hplot ▸ List.getElem?_eq_getElem hslot), hin⟩
    exact hlt.ne (h.houses_unique (hhouse i hi hindex) (hhouse j hj hindex'))

/-- If no point alive is beyond some number, those alive are the points below it that the forest
contains. -/
theorem live_perm (h : forest.Sound) {bound : Nat}
    (hinside : ∀ slot index, forest.Houses slot index → index < bound) :
    forest.live.Perm ((List.range bound).filter forest.contains) := by
  rw [List.perm_ext_iff_of_nodup h.live_nodup (List.nodup_range.filter _)]
  intro index
  rw [List.mem_filter, List.mem_range, h.contains_iff, mem_live]
  constructor
  · rintro ⟨slot, hhouse⟩
    exact ⟨hinside slot index hhouse, slot, hhouse⟩
  · exact And.right

/-- The size of a slot is the number of points alive in it. -/
theorem sizes_eq (h : forest.Sound) :
    forest.sizes = forest.slots.map fun plot => (plot.elim [] Plot.livePoints).length := by
  apply List.map_congr_left
  intro plot hplot
  cases plot with
  | none => rfl
  | some plot =>
    obtain ⟨slot, hslot⟩ := List.getElem?_of_mem hplot
    exact (h.plot slot plot (plot?_eq_some.mpr hslot)).size_eq

/-- The sizes of the slots add up to the number of points alive. -/
theorem sum_sizes (h : forest.Sound) : forest.sizes.sum = forest.live.length := by
  rw [h.sizes_eq, live, List.length_flatMap]

private theorem contains_eq_live (h : forest.Sound) :
    {index | forest.contains index = true} = (forest.live.toFinset : Set Nat) := by
  ext index
  rw [Set.mem_ofPred_eq, h.contains_iff, Finset.mem_coe, List.mem_toFinset, mem_live]

/-- Only finitely many points are alive. -/
theorem finite_contains (h : forest.Sound) : {index | forest.contains index = true}.Finite := by
  rw [h.contains_eq_live]
  exact Finset.finite_toSet _

/-- The points alive are counted. -/
theorem ncard_contains (h : forest.Sound) :
    {index | forest.contains index = true}.ncard = forest.live.length := by
  rw [h.contains_eq_live, Set.ncard_coe_finset, List.toFinset_card_of_nodup h.live_nodup]

end Sound

end Forest

end Proximity
