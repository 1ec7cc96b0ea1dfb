import Mathlib
import Proximity.Proofs.Forest.Asking
import Proximity.Proofs.Forest.Reachable

/-!
# Forests and their histories

A forest changes by calls, any of which may fail, while its source may grow. However it came about,
it can be asked over its source; so its answers depend on the points alive alone, and if these are
all points of the source, they are the answers of one tree over it. With more points than a word can
count there may be no answer at all.
-/

namespace Proximity

namespace Forest

variable {N D : Type} [Coordinate N] {forest : Forest N D} {source : Source N}

/-- What can be asked of a forest that changes it. -/
inductive Call where
  | insert (index : Nat)
  /-- Inserts so many points from one on, until one cannot be inserted. -/
  | insertRange (count first : Nat)
  | remove (index : Nat)

/-- The forest after a call. An insertion that fails leaves it as it is. -/
def perform (source : Source N) (forest : Forest N D) : Call → Forest N D
  | .insert index =>
    match forest.insert source index with
    | .ok final => final
    | .error _ => forest
  | .insertRange count first => (insertRange source count first forest).1
  | .remove index => (forest.remove index).1

/-- How a forest comes about by calls over a source that may grow in between. -/
inductive History : Source N → Forest N D → Prop
  | empty {source : Source N} {options metric forest} :
      empty source.dims options metric = .ok forest → History source forest
  | call {source : Source N} {forest} (call : Call) :
      History source forest → History source (forest.perform source call)
  | grow {source smaller : Source N} {forest} :
      History smaller forest → source.Extends smaller → History source forest

/-- What every successful insertion keeps holds after a range, however far it came. -/
theorem insertRange_induction {motive : Forest N D → Prop}
    (step : ∀ forest index final, motive forest → forest.insert source index = .ok final →
      motive final) (count first : Nat) {forest : Forest N D} (h : motive forest) :
    motive (insertRange source count first forest).1 := by
  induction count generalizing first forest with
  | zero => exact h
  | succ count ih =>
    rw [insertRange]
    split
    · exact h
    · next final hinsert => exact ih (first + 1) (step forest first final h hinsert)

/-- What successful insertions and removals keep holds after every call. -/
theorem perform_induction {motive : Forest N D → Prop}
    (insert : ∀ forest index final, motive forest → forest.insert source index = .ok final →
      motive final)
    (remove : ∀ forest index, motive forest → motive (forest.remove index).1)
    (call : Call) {forest : Forest N D} (h : motive forest) :
    motive (forest.perform source call) := by
  cases call with
  | insert index =>
    rw [perform]
    split
    · next final hinsert => exact insert forest index final h hinsert
    · exact h
  | insertRange count first => exact insertRange_induction insert count first h
  | remove index => exact remove forest index h

/-- However a forest came about, it can be asked over its source. -/
theorem History.serves [LawfulCoordinate N] (h : History source forest)
    (hfinite : source.Finite) : forest.Serves source := by
  induction h with
  | empty hempty => exact .empty hempty
  | @call source forest call _ ih =>
    refine perform_induction (motive := fun forest => forest.Serves source) ?_ ?_ call (ih hfinite)
    · exact fun forest index final hforest hinsert => hforest.insert hfinite hinsert
    · exact fun forest index hforest => hforest.remove index
  | grow _ hext ih => exact (ih (hext.finite hfinite)).grown hext

variable [LawfulCoordinate N] [Distance D] [LawfulDistance D] [ToString D]

/-- However a forest came about, the nearest neighbors in it are the first of all points alive by
distance and then by index. So they are the same in every forest with the same points alive, and
if these are all points of the source, they are those in one tree over it. A query is lost instead
only if there are more points than a word can count. -/
theorem History.answers {query : List N} {k : Nat} (h : History source forest)
    (hfinite : source.Finite) (hquery : query.length = source.dims)
    (hmetric : forest.metric.Bounds query) (hk : 0 < k) :
    ∃ index, forest.toIndex source = .ok index ∧
      (source.size ≤ maxWord32 → ¬ index.Overfull) ∧
      (index.nearest query k = .ok ((Neighbor.sort (forest.neighbors source query)).take k) ∨
        index.Lost (index.nearest query k)) ∧
      (∀ other : Forest N D, History source other → other.metric = forest.metric →
        (∀ i, other.contains i = forest.contains i) →
        ∃ index', other.toIndex source = .ok index' ∧
          (index'.nearest query k = index.nearest query k ∨
            index.Lost (index.nearest query k) ∨ index'.Lost (index'.nearest query k))) ∧
      ((∀ i < source.size, forest.contains i = true) →
        ∀ bounds options tree, ({ source with bounds } : Source N).Covered →
          Tree.ofSource { source with bounds } options = .ok tree →
          (Index.ofTree tree { source with bounds } forest.metric).nearest query k =
            index.nearest query k) := by
  obtain ⟨index, hindex, hfits, hnearest⟩ := (h.serves hfinite).nearest hquery hmetric hk
  refine ⟨index, hindex, hfits, hnearest, ?_, ?_⟩
  · intro other hother hsame hcontains
    obtain ⟨index', hindex', -, hnearest'⟩ :=
      (hother.serves hfinite).nearest hquery (hsame ▸ hmetric) hk
    have hneighbors : other.neighbors source query = forest.neighbors source query := by
      rw [neighbors, neighbors, hsame, funext hcontains]
    rw [hneighbors] at hnearest'
    refine ⟨index', hindex', ?_⟩
    rcases hnearest with hnearest | hlost
    · exact hnearest'.imp (·.trans hnearest.symm) .inr
    · exact .inr (.inl hlost)
  · intro hall bounds options tree hcovered htree
    have hfinite' : ({ source with bounds } : Source N).Finite := hfinite
    have hquery' : query.length = ({ source with bounds } : Source N).dims := hquery
    have hneighbors : forest.neighbors source query = source.neighbors forest.metric query := by
      rw [neighbors, List.filter_eq_self.mpr fun i hi => hall i (List.mem_range.mp hi)]
      rfl
    have hwords : source.size ≤ maxWord32 := (Tree.ofSource_eq_ok htree).1
    have hnearest := hnearest.resolve_right fun hlost => hfits hwords hlost.1
    rw [Index.nearest_ofTree htree hfinite' hcovered hquery' hmetric hk, hnearest, hneighbors]
    rfl

end Forest

/-- The nearest byte among those alive, after an insertion that failed and a removal. -/
theorem answers_bytes :
    Forest.History byteSource byteForest ∧ byteForest.metric.Bounds [0] ∧
      ∃ index, byteForest.toIndex byteSource = .ok index ∧
        index.nearest [0] 1 =
          .ok ((Neighbor.sort (byteForest.neighbors byteSource [0])).take 1) := by
  have hempty : Forest.empty byteSource.dims ⟨2, none⟩
      (.squaredEuclidean : Metric UInt8 Binary64) =
      .ok ⟨1, ⟨2, none⟩, .squaredEuclidean, [], 0, .empty, 0⟩ := rfl
  have hcalls : ([.insertRange 2 0, .insert 1, .remove 0] : List Forest.Call).foldl
      (Forest.perform byteSource)
      ⟨1, ⟨2, none⟩, (.squaredEuclidean : Metric UInt8 Binary64), [], 0, .empty, 0⟩ =
      byteForest := rfl
  have hhistory : Forest.History byteSource byteForest :=
    hcalls ▸ .call (.remove 0) (.call (.insert 1) (.call (.insertRange 2 0) (.empty hempty)))
  have hquery : ([0] : List UInt8).length = byteSource.dims := rfl
  obtain ⟨index, hindex, hfits, hnearest, -⟩ := hhistory.answers finite_byteSource hquery
    bounds_squaredEuclidean_byte Nat.one_pos
  exact ⟨hhistory, bounds_squaredEuclidean_byte, index, hindex,
    hnearest.resolve_right fun hlost => hfits (by decide) hlost.1⟩

end Proximity
