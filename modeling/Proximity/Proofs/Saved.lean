import Mathlib
import Proximity.Proofs.Coordinate.Instances
import Proximity.Proofs.Forest.Reachable
import Proximity.Proofs.Forest.Saving

/-!
# When what was saved can be loaded

Saving checks less than loading. A tight box around points without an ordered coordinate on some
axis is crossed there, a box known beforehand can add one node too many, and the number of points
of a source may not fit the header of a forest. What was saved is loaded from its bytes in all other
cases, and refused in these.
-/

namespace Proximity

variable {N D : Type} [Coordinate N] [LawfulCoordinate N] [Storable N]

open Forest in
/-- A tree over all points of a source is loaded from its bytes exactly if it has no more nodes than
twice its points and no crossed side: with a box known beforehand, if that does not overgrow, and
without one, if the points are spanned. A forest is loaded from its bytes exactly if the size of its
source fits the header and the points alive in each slot are spanned. -/
theorem load_saved_iff (hrange : (Coordinate.lowest : N) < Coordinate.highest) :
    (∀ (source : Source N) (options : BuildOptions) (tree : Tree N),
      Tree.ofSource source options = .ok tree →
      ((∃ result, Tree.load source (Stream.ofBytes (tree.encode source.size)) = .ok result) ↔
        tree.Readable) ∧
      (source.Enclosed → (tree.Readable ↔ ¬ source.Overgrows options.leafSize tree.box ∧
        ∀ side ∈ tree.box.sides, ¬ side.high < side.low)) ∧
      (source.bounds = none → (tree.Readable ↔ source.Spanned (List.range source.size)))) ∧
    ∀ (source : Source N) (forest : Forest N D) (bytes : List UInt8),
      History source forest → (forest.save source).toBytes = .ok bytes →
      ((∃ result, Forest.load source none forest.metric (Stream.ofBytes bytes) = .ok result) ↔
        source.size ≤ maxWord32 ∧ ∀ slot plot, forest.plot? slot = some plot →
          plot.livePoints ≠ [] → source.Spanned plot.livePoints) := by
  constructor
  · intro source options tree htree
    obtain ⟨hload, hspanned⟩ := Tree.load_ofSource hrange htree
    refine ⟨?_, ?_, hspanned⟩
    · simp only [hload, exists_and_left, exists_eq, and_true]
    · intro henclosed
      obtain ⟨hover, hunder⟩ := (Tree.ofSource_eq_ok htree).2.nodes_of_overgrows henclosed
      refine and_congr_left fun _ => ⟨?_, hunder⟩
      intro hfew hgrown
      have hmany := hover hgrown
      omega
  · intro source forest bytes hhistory hsave
    have hwritable := hhistory.writable
    obtain ⟨stored, hstored, rfl⟩ := save_eq_ok.mp hsave
    have hload (result) : Forest.load source none forest.metric (Stream.ofBytes
        (forest.encodeHeader source.size ++ stored.flatMap (written source.size))) = .ok result ↔
        source.size ≤ maxWord32 ∧ (∀ tree, some tree ∈ stored → tree.Readable) ∧
          result = ((forest.cleared none forest.metric).replant stored, ⟨[], .closed⟩) :=
      hwritable.load_iff hstored fun _ _ limit hnone => absurd hnone.symm (Option.some_ne_none limit)
    simp only [hload, exists_and_left, exists_eq, and_true]
    exact and_congr_right fun _ => hwritable.stored_readable_iff hrange hstored

theorem history_byteForest : Forest.History byteSource byteForest := by
  have hempty : Forest.empty byteSource.dims ⟨2, none⟩
      (.squaredEuclidean : Metric UInt8 Binary64) =
      .ok ⟨1, ⟨2, none⟩, .squaredEuclidean, [], 0, .empty, 0⟩ := rfl
  have hcalls : ([.insert 0, .insert 1, .remove 0] : List Forest.Call).foldl
      (Forest.perform byteSource)
      ⟨1, ⟨2, none⟩, (.squaredEuclidean : Metric UInt8 Binary64), [], 0, .empty, 0⟩ =
      byteForest := rfl
  exact hcalls ▸ .call (.remove 0) (.call (.insert 1) (.call (.insert 0) (.empty hempty)))

/-- The tree and the forest over four bytes are loaded from what is saved of them. -/
theorem load_saved_bytes :
    (Coordinate.lowest : UInt8) < Coordinate.highest ∧
    Tree.ofSource byteSource ⟨2, none⟩ = .ok byteTree ∧
    (∃ result, Tree.load byteSource (Stream.ofBytes (byteTree.encode byteSource.size)) =
      .ok result) ∧
    Forest.History byteSource byteForest ∧
    ∃ bytes result, (byteForest.save byteSource).toBytes = .ok bytes ∧
      Forest.load byteSource none byteForest.metric (Stream.ofBytes bytes) = .ok result := by
  have hrange : (Coordinate.lowest : UInt8) < Coordinate.highest := by decide
  have htree : Tree.ofSource byteSource ⟨2, none⟩ = .ok byteTree := by decide +kernel
  have hreadable : byteTree.Readable := ⟨by decide, by decide⟩
  obtain ⟨bytes, hbytes⟩ : ∃ bytes, (byteForest.save byteSource).toBytes = .ok bytes := ⟨_, rfl⟩
  obtain ⟨hstatic, hdynamic⟩ := load_saved_iff (D := Binary64) hrange
  have hspanned (slot plot) (hplot : byteForest.plot? slot = some plot)
      (hlive : plot.livePoints ≠ []) : byteSource.Spanned plot.livePoints := by
    refine Source.spanned_of_finite (fun index hindex => finite_byteSource index ?_) hlive
    exact (history_byteForest.writable.built slot plot hplot).inside index
      (Plot.mem_livePoints.mp hindex).1
  obtain ⟨result, hload⟩ := (hdynamic byteSource byteForest bytes history_byteForest hbytes).mpr
    ⟨by decide, hspanned⟩
  exact ⟨hrange, htree, (hstatic _ _ _ htree).1.mpr hreadable, history_byteForest, bytes, result,
    hbytes, hload⟩

/-- One point without an ordered coordinate. -/
def unorderedSource : Source Binary64 := Source.ofRows #[#[.undefined]]

/-- The tree over that point, with a box that nothing stretched. -/
def unorderedTree : Tree Binary64 :=
  ⟨1, 10, #[0], ⟨[⟨.maxFinite, Binary64.neg .maxFinite⟩]⟩, .leaf 0 1⟩

/-- More points than a word of four bytes can count, all at zero. -/
def vastSource : Source Binary64 := ⟨4294967297, 1, fun _ _ => some 0, none⟩

/-- The forest over that source after one point was inserted. -/
def vastForest : Forest Binary64 Binary64 :=
  ⟨1, .standard, .squaredEuclidean, [some ⟨⟨1, 10, #[0], ⟨[⟨0, 0⟩]⟩, .leaf 0 1⟩, []⟩], 1,
    ⟨#[some 0]⟩, 1⟩

/-- A tree is saved that cannot be loaded, and so is a forest. -/
theorem not_loaded : Tree.ofSource unorderedSource .standard = .ok unorderedTree ∧
    Tree.load unorderedSource (Stream.ofBytes (unorderedTree.encode unorderedSource.size)) =
      .error (.storedPart .cornersCrossed) ∧
    Forest.History vastSource vastForest ∧
    ∃ bytes, (vastForest.save vastSource).toBytes = .ok bytes ∧
      Forest.load vastSource none vastForest.metric (Stream.ofBytes bytes) =
        .error (.savedPoints 1 4294967297) := by
  refine ⟨by decide +kernel, by decide +kernel, ?_, _, rfl, rfl⟩
  have hempty : Forest.empty vastSource.dims .standard
      (.squaredEuclidean : Metric Binary64 Binary64) =
      .ok ⟨1, .standard, .squaredEuclidean, [], 0, .empty, 0⟩ := rfl
  have hinsert : Forest.perform vastSource
      ⟨1, .standard, (.squaredEuclidean : Metric Binary64 Binary64), [], 0, .empty, 0⟩
      (.insert 0) = vastForest := rfl
  exact hinsert ▸ .call (.insert 0) (.empty hempty)

end Proximity
