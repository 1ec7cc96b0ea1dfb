import Mathlib
import Proximity.Proofs.Exactness
import Proximity.Proofs.Forest.Loading
import Proximity.Proofs.Forest.Steps

/-!
# Forests that can be reached

A forest is begun without points or read from any bytes that are accepted, and points come and go
after that. All that is ever relied on holds of every such forest, since each step keeps it.
-/

namespace Proximity

namespace Forest

variable {N D : Type} [Coordinate N] [Storable N]

/-- Whether a forest comes about by any insertions and removals, begun anew or read from bytes.
An insertion that fails leaves the forest as it is. -/
inductive Reachable : Forest N D → Prop
  | empty {dims options metric forest} :
      empty dims options metric = .ok forest → Reachable forest
  | load {source maxNodes metric stream forest rest} :
      load source maxNodes metric stream = .ok (forest, rest) → Reachable forest
  | insert {forest source index final} :
      Reachable forest → forest.insert source index = .ok final → Reachable final
  | remove {forest} (index : Nat) : Reachable forest → Reachable (forest.remove index).1

variable [LawfulCoordinate N] {forest : Forest N D}

/-- A forest that was loaded and changed by calls is sound. -/
theorem Reachable.sound (h : Reachable forest) : forest.Sound := by
  induction h with
  | empty hempty =>
    obtain ⟨-, -, -, rfl⟩ := empty_eq_ok.mp hempty
    exact sound_empty _ _ _ (Nat.zero_le _)
  | load hload => exact sound_load hload
  | insert _ hinsert ih => exact ih.insert hinsert
  | remove index _ ih => exact ih.remove index

/-- A forest is a finite set of points. A point is in it if exactly one slot houses it, which is
the one that the directory names; slots hold no point twice and remove only what they hold; the
size counts the points; and an occupied slot is counted, so that an insertion settles in an empty
one. An insertion adds its point alone, and a removal deletes its point alone. -/
theorem Reachable.finite_set (h : Reachable forest) :
    (∀ index,
      (forest.contains index = true ↔ ∃! slot, forest.Houses slot index) ∧
      ∀ slot, forest.directory.slot? index = some slot ↔ forest.Houses slot index) ∧
    (∀ slot plot, forest.plot? slot = some plot →
      plot.tree.order.toList.Nodup ∧ plot.removed ⊆ plot.tree.order.toList ∧
      plot.removed.length ≤ plot.tree.size ∧ forest.counter.testBit slot = true) ∧
    {index | forest.contains index = true}.Finite ∧
    forest.size = {index | forest.contains index = true}.ncard ∧
    forest.size = forest.sizes.sum ∧
    (∀ source index final, forest.insert source index = .ok final →
      forest.plot? (carry 64 forest.counter) = none ∧
      (∀ slot, carry 64 forest.counter < slot → final.plot? slot = forest.plot? slot) ∧
      forest.contains index = false ∧
      ∀ other, final.contains other = true ↔ other = index ∨ forest.contains other = true) ∧
    ∀ index, (forest.remove index).2 = forest.contains index ∧
      ∀ other, (forest.remove index).1.contains other = true ↔
        other ≠ index ∧ forest.contains other = true := by
  have hsound := h.sound
  refine ⟨?_, ?_, hsound.finite_contains, ?_, ?_, ?_, ?_⟩
  · intro index
    refine ⟨?_, hsound.home index⟩
    rw [hsound.contains_iff]
    constructor
    · rintro ⟨slot, hhouse⟩
      exact ⟨slot, hhouse, fun other hother => hsound.houses_unique hother hhouse⟩
    · rintro ⟨slot, hhouse, -⟩
      exact ⟨slot, hhouse⟩
  · intro slot plot hplot
    have hplot' := hsound.plot slot plot hplot
    have hlength := hplot'.length_livePoints
    exact ⟨hplot'.nodup, hplot'.removed_subset, by omega, hsound.counted slot plot hplot⟩
  · rw [hsound.ncard_contains, hsound.size_eq]
  · rw [hsound.sum_sizes, hsound.size_eq]
  · intro source index final hinsert
    obtain ⟨tree, hinserted, rfl⟩ := insert_eq_ok hinsert
    refine ⟨hsound.plot?_carry hinserted.counter_lt, ?_, hinserted.absent,
      hinserted.contains_settle hsound⟩
    intro slot hslot
    rw [plot?_settle, if_neg (by omega), if_neg (by omega)]
  · intro index
    exact ⟨hsound.remove_snd index, hsound.contains_remove index⟩

end Forest

/-- The forest over the four bytes after the first two were inserted and the first was removed. -/
def byteForest : Forest UInt8 Binary64 :=
  ⟨1, ⟨2, none⟩, .squaredEuclidean,
    [none, some ⟨⟨1, 2, #[0, 1], ⟨[⟨1, 3⟩]⟩, .leaf 0 2⟩, [0]⟩], 2, ⟨#[none, some 1]⟩, 1⟩

/-- The forest comes from calls alone. -/
theorem reachable_byteForest : byteForest.Reachable := by
  have hempty : Forest.empty 1 ⟨2, none⟩ (.squaredEuclidean : Metric UInt8 Binary64) =
      .ok ⟨1, ⟨2, none⟩, .squaredEuclidean, [], 0, .empty, 0⟩ := rfl
  have hfirst : Forest.insert
      ⟨1, ⟨2, none⟩, (.squaredEuclidean : Metric UInt8 Binary64), [], 0, .empty, 0⟩ byteSource 0 =
      .ok ⟨1, ⟨2, none⟩, .squaredEuclidean,
        [some ⟨⟨1, 2, #[0], ⟨[⟨3, 3⟩]⟩, .leaf 0 1⟩, []⟩], 1, ⟨#[some 0]⟩, 1⟩ := rfl
  have hsecond : Forest.insert ⟨1, ⟨2, none⟩, (.squaredEuclidean : Metric UInt8 Binary64),
      [some ⟨⟨1, 2, #[0], ⟨[⟨3, 3⟩]⟩, .leaf 0 1⟩, []⟩], 1, ⟨#[some 0]⟩, 1⟩ byteSource 1 =
      .ok ⟨1, ⟨2, none⟩, .squaredEuclidean,
        [none, some ⟨⟨1, 2, #[0, 1], ⟨[⟨1, 3⟩]⟩, .leaf 0 2⟩, []⟩], 2,
        ⟨#[some 1, some 1]⟩, 2⟩ := rfl
  exact .remove 0 (.insert (.insert (.empty hempty) hfirst) hsecond)

/-- The forest over bytes holds one point, at home in the second slot. -/
theorem finite_set_bytes :
    byteForest.Reachable ∧ byteForest.contains 1 = true ∧
      (∃! slot, byteForest.Houses slot 1) ∧ byteForest.size = byteForest.sizes.sum := by
  have hset := reachable_byteForest.finite_set
  have hone : byteForest.contains 1 = true := rfl
  exact ⟨reachable_byteForest, hone, (hset.1 1).1.mp hone, hset.2.2.2.2.1⟩

end Proximity
