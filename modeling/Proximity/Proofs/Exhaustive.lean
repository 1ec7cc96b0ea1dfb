import Mathlib
import Proximity.Proofs.Coordinate.Instances
import Proximity.Proofs.Forest.Saving
import Proximity.Proofs.Tree.Tiling
import Proximity.Proofs.Unpruned

/-!
# Searches of everything

A search for all points at any distance shows what an index holds. In a tree that was read it finds
every point once exactly if no point is stored twice and the leaves tile the tree, neither of which
the reader checks; in a forest it finds every point alive once exactly if the leaves tile each tree.
-/

namespace Proximity

variable {N D : Type} [Coordinate N] [LawfulCoordinate N]

namespace Metric

/-- The difference of an ordered value and another is ordered, unless two infinities may be
equal. -/
theorem isNaN_difference {v w : N} (hv : v ≤ v) (h : Coordinate.IsFinite w ∨ v < w ∨ w < v) :
    (widen v - widen w : Binary64).isNaN = false := by
  show (Coordinate.toBinary64 v - Coordinate.toBinary64 w).isNaN = false
  rcases h with ⟨hlow, hhigh⟩ | hlt | hlt
  · have hlow := Comparison.trans LawfulCoordinate.toBinary64_lowest
      (LawfulCoordinate.toBinary64_le hlow)
    have hhigh := Comparison.trans (LawfulCoordinate.toBinary64_le hhigh)
      LawfulCoordinate.toBinary64_highest
    have hordered := ((Binary64.le_iff _ _).mp (LawfulCoordinate.toBinary64_le hv)).1
    refine Binary64.isNaN_sub hordered ((Binary64.le_iff _ _).mp hhigh).1 (.inr (.inl ?_))
    cases hsign : (Coordinate.toBinary64 w).isNegative with
    | true => exact Binary64.magnitude_lt_of_ge hlow hsign
    | false => exact Binary64.magnitude_lt_of_le hhigh hsign
  · exact (Binary64.isNaN_sub_of_lt (LawfulCoordinate.toBinary64_lt hlt)).1
  · exact (Binary64.isNaN_sub_of_lt (LawfulCoordinate.toBinary64_lt hlt)).2

/-- Whether no contribution is below zero, unless two infinities may be equal. -/
def Rises (contribution : Nat → N → N → Binary64) : Prop :=
  ∀ axis v w, v ≤ v → Coordinate.IsFinite w ∨ v < w ∨ w < v → 0 ≤ contribution axis v w

/-- Squares of rounded differences are never below zero. -/
theorem rises_squaredDifference : Rises (squaredDifference : Nat → N → N → Binary64) :=
  fun _ _ _ hv h => Binary64.zero_le_square (isNaN_difference hv h)

/-- Sizes of rounded differences are never below zero. -/
theorem rises_absoluteDifference :
    Rises fun _ (v w : N) => Scalar.abs (widen v - widen w : Binary64) :=
  fun _ _ _ hv h => Binary64.zero_le_abs (isNaN_difference hv h)

omit [LawfulCoordinate N] in
/-- A gap is a contribution to one of the ends, or zero. -/
theorem Rises.zero_le_gapToEnd {contribution : Nat → N → N → Binary64} (h : Rises contribution)
    {v : N} (hv : v ≤ v) (axis : Nat) (side : Side N) :
    (0 : Binary64) ≤ gapToEnd contribution axis v side := by
  unfold gapToEnd
  split
  · next hlt => exact h axis v side.low hv (.inr (.inl hlt))
  split
  · next hlt => exact h axis v side.high hv (.inr (.inr hlt))
  · exact LawfulDistance.zero_le

omit [Coordinate N] [LawfulCoordinate N] in
/-- Rounded sums of values that are not below zero are not below zero. -/
theorem zero_le_total {gaps : List Binary64} (h : ∀ gap ∈ gaps, 0 ≤ gap) :
    0 ≤ Scalar.total gaps := by
  have hfold (gaps : List Binary64) (h : ∀ gap ∈ gaps, 0 ≤ gap) (acc : Binary64)
      (hacc : 0 ≤ acc) : 0 ≤ gaps.foldl (· + ·) acc := by
    induction gaps generalizing acc with
    | nil => exact hacc
    | cons gap gaps ih =>
      obtain ⟨hgap, hgaps⟩ := List.forall_mem_cons.mp h
      exact ih hgaps _ (Binary64.zero_le_add hacc hgap)
  exact hfold gaps h 0 LawfulDistance.zero_le

section Sums

variable {contribution : Nat → N → N → Binary64}

omit [LawfulCoordinate N] in
/-- The sum of the contributions to a finite point is not below zero. -/
theorem Rises.zero_le_sum (h : Rises contribution) {query point : List N}
    (hquery : ∀ v ∈ query, v ≤ v) (hpoint : ∀ v ∈ point, Coordinate.IsFinite v) {axis : Nat}
    {acc : Binary64} (hacc : 0 ≤ acc) : 0 ≤ sum contribution axis acc query point := by
  induction query generalizing point axis acc with
  | nil => exact hacc
  | cons v query ih =>
    cases point with
    | nil => exact hacc
    | cons w point =>
      obtain ⟨hv, hquery⟩ := List.forall_mem_cons.mp hquery
      obtain ⟨hw, hpoint⟩ := List.forall_mem_cons.mp hpoint
      exact ih hquery hpoint (Binary64.zero_le_add hacc (h axis v w hv (.inl hw)))

omit [LawfulCoordinate N] in
/-- The sum of the contributions to a finite point is never given up for being above infinity. -/
theorem Rises.sumTo_infinity (h : Rises contribution) {query point : List N}
    (hquery : ∀ v ∈ query, v ≤ v) (hpoint : ∀ v ∈ point, Coordinate.IsFinite v)
    (hlength : point.length = query.length) {read : Nat → Except Error N} {axis : Nat}
    {acc : Binary64} (hacc : 0 ≤ acc)
    (hread : ∀ (i : Nat) (v : N), point[i]? = some v → read (axis + i) = .ok v) :
    sumTo contribution read (Distance.infinity < ·) axis acc query =
      .ok (sum contribution axis acc query point) := by
  induction query generalizing point axis acc with
  | nil =>
    obtain rfl := List.eq_nil_of_length_eq_zero hlength
    rfl
  | cons v query ih =>
    obtain ⟨w, point, rfl⟩ := List.exists_cons_of_length_eq_add_one hlength
    obtain ⟨hv, hquery⟩ := List.forall_mem_cons.mp hquery
    obtain ⟨hw, hpoint⟩ := List.forall_mem_cons.mp hpoint
    have hacc' : 0 ≤ acc + contribution axis v w :=
      Binary64.zero_le_add hacc (h axis v w hv (.inl hw))
    have hgoes := LawfulDistance.not_infinity_lt (acc + contribution axis v w)
    have hfirst : read axis = .ok w := hread 0 w rfl
    have hrest (i : Nat) (u : N) (hu : point[i]? = some u) : read (axis + 1 + i) = .ok u := by
      rw [Nat.add_right_comm]
      exact hread (i + 1) u hu
    simp only [sumTo, hfirst, Outcome.ok_bind, hgoes, decide_false, Bool.false_eq_true, ite_false]
    exact ih hquery hpoint (Nat.succ.inj hlength) hacc' hrest

omit [LawfulCoordinate N] in
/-- Nothing that such contributions make of an ordered query is beyond infinity. -/
theorem Rises.allWithin (h : Rises contribution) (ofRadius : Binary64 → Binary64)
    {query : List N} (hquery : ∀ v ∈ query, v ≤ v) :
    (additive contribution ofRadius).AllWithin query Distance.infinity where
  total_le box _ := by
    refine LawfulDistance.le_infinity (Comparison.right (zero_le_total ?_))
    intro gap hgap
    obtain ⟨⟨⟨v, side⟩, axis⟩, hmem, rfl⟩ := List.mem_map.mp hgap
    have hv := (List.of_mem_zip (List.mem_of_getElem? (List.mem_zipIdx_iff_getElem?.mp hmem))).1
    exact h.zero_le_gapToEnd (hquery v hv) axis side
  distance_le point _ hpoint := LawfulDistance.le_infinity
    (Comparison.right (h.zero_le_sum hquery hpoint LawfulDistance.zero_le))
  distanceTo point read hlength hpoint hread := by
    refine h.sumTo_infinity hquery hpoint hlength LawfulDistance.zero_le ?_
    intro i v hv
    rw [Nat.zero_add]
    exact hread i v hv

end Sums

/-- No squared distance from an ordered query passes infinity, bounds of boxes included. -/
theorem allWithin_squaredEuclidean {query : List N} (hquery : ∀ v ∈ query, v ≤ v) :
    (squaredEuclidean : Metric N Binary64).AllWithin query Distance.infinity :=
  rises_squaredDifference.allWithin _ hquery

/-- No sum of sizes from an ordered query passes infinity, bounds of boxes included. -/
theorem allWithin_manhattan {query : List N} (hquery : ∀ v ∈ query, v ≤ v) :
    (manhattan : Metric N Binary64).AllWithin query Distance.infinity :=
  rises_absoluteDifference.allWithin _ hquery

end Metric

omit [Coordinate N] [LawfulCoordinate N] in
/-- Parts of lists that have no item in common are their arrangements together exactly if each of
them is. -/
theorem flatMap_perm_iff {α : Type} {part whole : α → List Nat} {items : List α}
    (hsub : ∀ item ∈ items, ∀ i ∈ part item, i ∈ whole item)
    (hnodup : (items.flatMap whole).Nodup) :
    (items.flatMap part).Perm (items.flatMap whole) ↔
      ∀ item ∈ items, (part item).Perm (whole item) := by
  induction items with
  | nil => exact ⟨fun _ _ h => absurd h List.not_mem_nil, fun _ => .refl _⟩
  | cons item items ih =>
    rw [List.flatMap_cons] at hnodup
    obtain ⟨-, hrest, hdisjoint⟩ := List.nodup_append.mp hnodup
    obtain ⟨hfirst, hsub⟩ := List.forall_mem_cons.mp hsub
    have hinto : ∀ i ∈ items.flatMap part, i ∈ items.flatMap whole := by
      intro i hi
      obtain ⟨other, hother, hi⟩ := List.mem_flatMap.mp hi
      exact List.mem_flatMap.mpr ⟨other, hother, hsub other hother i hi⟩
    rw [List.flatMap_cons, List.flatMap_cons, List.forall_mem_cons, ← ih hsub hrest]
    have hapart : ∀ i ∈ items.flatMap whole, i ∉ whole item :=
      fun i hi hin => hdisjoint i hin i hi rfl
    constructor
    · intro hperm
      -- What is in the first whole comes from the first part, as no other has anything of it.
      have hown : (part item).Perm (whole item) := by
        have hpart : (part item).filter (· ∈ whole item) = part item :=
          List.filter_eq_self.mpr fun i hi => decide_eq_true (hfirst i hi)
        have hwhole : (whole item).filter (· ∈ whole item) = whole item :=
          List.filter_eq_self.mpr fun i hi => decide_eq_true hi
        have hparts : (items.flatMap part).filter (· ∈ whole item) = [] :=
          List.filter_eq_nil_iff.mpr fun i hi => by
            rw [decide_eq_true_eq]
            exact hapart i (hinto i hi)
        have hwholes : (items.flatMap whole).filter (· ∈ whole item) = [] :=
          List.filter_eq_nil_iff.mpr fun i hi => by
            rw [decide_eq_true_eq]
            exact hapart i hi
        have hfilter := hperm.filter (· ∈ whole item)
        rwa [List.filter_append, List.filter_append, hpart, hparts, hwhole, hwholes,
          List.append_nil, List.append_nil] at hfilter
      exact ⟨hown, (List.perm_append_left_iff _).mp ((hown.symm.append_right _).trans hperm)⟩
    · rintro ⟨hown, hothers⟩
      exact hown.append hothers

namespace Index

variable [Storable N] {index : Index N Binary64} {query : List N}

/-- A search for everything finds the points of the leaves of what was read. -/
theorem Loaded.within_infinity (h : index.Loaded) (hmetric : index.metric = .squaredEuclidean)
    (hfinite : index.source.Finite) (hquery : ∀ v ∈ query, v ≤ v)
    (hlength : query.length = index.dims) :
    index.within query Distance.infinity .standard =
      .ok (Neighbor.sort (index.leafPoints.map fun i =>
        ⟨i, Metric.squaredEuclidean.distance query (index.source.coordinates i)⟩)) := by
  have hsquare : (Metric.squaredEuclidean : Metric N Binary64).ofRadius Distance.infinity =
      Distance.infinity := by
    show Scalar.square (Distance.infinity : Binary64) = Distance.infinity
    decide +kernel
  have hradius : (0 : Binary64) ≤ Distance.infinity := by decide +kernel
  have hall : index.metric.AllWithin query (index.metric.ofRadius Distance.infinity) := by
    rw [hmetric, hsquare]
    exact Metric.allWithin_squaredEuclidean hquery
  rw [h.within_all hfinite hlength hradius hall, hmetric]

end Index

section

variable [Storable N]

omit [LawfulCoordinate N] in
/-- The points of the leaves of a tree that was loaded are all points of its source, each once,
exactly if no point is stored twice and the leaves tile the tree. -/
theorem Tree.points_perm_of_load {source : Source N} {stream rest : Stream} {tree : Tree N}
    (h : load source stream = .ok (tree, rest)) :
    (tree.root.points tree.order).Perm (List.range source.size) ↔
      tree.order.toList.Nodup ∧ tree.root.Tiles tree.size := by
  obtain ⟨hread, hsize, -⟩ := load_eq_ok.mp h
  obtain ⟨hfits, -⟩ := read_eq_ok hread
  have hsize : tree.order.size = source.size := hsize
  rw [← hsize]
  exact hfits.root.points_perm_range_iff fun index hindex => hsize ▸ hfits.inside index hindex

omit [LawfulCoordinate N] in
/-- The points of the leaves of a forest that was loaded are those alive in it, each once, exactly
if the leaves tile every tree. -/
theorem Forest.leafPoints_perm_of_load {source : Source N} {maxNodes : Option Nat}
    {metric : Metric N D} {stream rest : Stream} {forest : Forest N D}
    (h : load source maxNodes metric stream = .ok (forest, rest)) :
    (forest.parts.flatMap fun part =>
        (part.tree.root.points part.tree.order).filter part.isLive).Perm forest.live ↔
      ∀ slot plot, forest.plot? slot = some plot → plot.tree.root.Tiles plot.tree.size := by
  have hsound := sound_load h
  obtain ⟨hfresh, -⟩ := fresh_load h
  have hplot (plot : Plot N) (hplot : some plot ∈ forest.slots) :
      (plot.tree.root.points plot.tree.order).filter plot.isLive =
        plot.tree.root.points plot.tree.order ∧
      plot.livePoints = plot.tree.order.toList ∧
      ((plot.tree.root.points plot.tree.order).Perm plot.tree.order.toList ↔
        plot.tree.root.Tiles plot.tree.size) := by
    obtain ⟨hremoved, -, stream, rest, hread⟩ := hfresh plot hplot
    obtain ⟨slot, hslot⟩ := List.getElem?_of_mem hplot
    have hnodup := (hsound.plot slot plot (plot?_eq_some.mpr hslot)).nodup
    refine ⟨List.filter_eq_self.mpr fun i _ => ?_, Plot.livePoints_of_intact hremoved,
      (Tree.read_eq_ok hread).1.root.points_perm_iff hnodup⟩
    rw [Plot.isLive, hremoved]
    rfl
  rw [flatMap_parts, live, flatMap_perm_iff]
  · constructor
    · intro hall slot plot hslot
      have hmem := List.mem_of_getElem? (plot?_eq_some.mp hslot)
      obtain ⟨hleaves, hlive, hiff⟩ := hplot plot hmem
      have hperm := hall (some plot) hmem
      rw [Option.elim_some, Option.elim_some, hleaves, hlive] at hperm
      exact hiff.mp hperm
    · intro htiles slot hslot
      cases slot with
      | none => exact .refl _
      | some plot =>
        obtain ⟨place, hplace⟩ := List.getElem?_of_mem hslot
        obtain ⟨hleaves, hlive, hiff⟩ := hplot plot hslot
        rw [Option.elim_some, Option.elim_some, hleaves, hlive]
        exact hiff.mpr (htiles place plot (plot?_eq_some.mpr hplace))
  · intro slot hslot i hi
    cases slot with
    | none => exact hi
    | some plot =>
      obtain ⟨hleaves, hlive, -⟩ := hplot plot hslot
      rw [Option.elim_some, hleaves] at hi
      rw [Option.elim_some, hlive]
      exact Array.mem_toList_iff.mpr (Node.mem_of_mem_points hi)
  · exact hsound.live_nodup

end

/-- A search for everything finds the points of the leaves of what was read, in order. In a tree
these are all points of its source, each once, exactly if no point is stored twice and the leaves
tile the tree, as they do in every tree that was built; in a forest they are all points alive, each
once, exactly if the leaves tile every tree. -/
theorem within_loaded [Storable N] {query : List N} (hquery : ∀ v ∈ query, v ≤ v) :
    (∀ (source : Source N) (stream rest : Stream) (tree : Tree N),
      Tree.load source stream = .ok (tree, rest) → source.Finite → query.length = source.dims →
      ∃ found, (Index.ofTree tree source (.squaredEuclidean : Metric N Binary64)).within query
          Distance.infinity .standard = .ok found ∧
        found = Neighbor.sort ((tree.root.points tree.order).map fun i =>
          ⟨i, Metric.squaredEuclidean.distance query (source.coordinates i)⟩) ∧
        ((found.map Neighbor.index).Perm (List.range source.size) ↔
          tree.order.toList.Nodup ∧ tree.root.Tiles tree.size)) ∧
    (∀ (source : Source N) (options : BuildOptions) (tree : Tree N),
      Tree.ofSource source options = .ok tree →
      tree.order.toList.Nodup ∧ tree.root.Tiles tree.size) ∧
    ∀ (source view : Source N) (maxNodes : Option Nat) (stream rest : Stream)
      (forest : Forest N Binary64) (index : Index N Binary64),
      Forest.load source maxNodes .squaredEuclidean stream = .ok (forest, rest) →
      forest.toIndex view = .ok index → view.Finite → query.length = view.dims →
      ∃ found, index.within query Distance.infinity .standard = .ok found ∧
        ((found.map Neighbor.index).Perm ((List.range view.size).filter forest.contains) ↔
          ∀ slot plot, forest.plot? slot = some plot → plot.tree.root.Tiles plot.tree.size) := by
  refine ⟨?_, ?_, ?_⟩
  · intro source stream rest tree hload hfinite hlength
    have hloaded : (Index.ofTree tree source (.squaredEuclidean : Metric N Binary64)).Loaded :=
      .tree hload
    have hleaves : (Index.ofTree tree source (.squaredEuclidean : Metric N Binary64)).leafPoints =
        tree.root.points tree.order := by
      rw [Index.leafPoints, Index.ofTree, List.flatMap_singleton]
      exact List.filter_eq_self.mpr fun _ _ => rfl
    have hdims : query.length = tree.dims :=
      hlength.trans (Tree.load_eq_ok.mp hload).2.2.symm
    have hfound := hloaded.within_infinity rfl hfinite hquery hdims
    rw [hleaves] at hfound
    refine ⟨_, hfound, rfl, ?_⟩
    rw [← Tree.points_perm_of_load hload]
    have hperm := Neighbor.map_index_sort (tree.root.points tree.order)
      fun i => (Metric.squaredEuclidean : Metric N Binary64).distance query (source.coordinates i)
    exact ⟨fun h => hperm.symm.trans h, fun h => hperm.trans h⟩
  · intro source options tree htree
    obtain ⟨hsize, hbuilt⟩ := Tree.ofSource_eq_ok htree
    exact ⟨hbuilt.order_perm.nodup_iff.mpr List.nodup_range,
      hbuilt.tiles (List.length_range.trans_le hsize)⟩
  · intro source view maxNodes stream rest forest index hload hindex hfinite hlength
    have hloaded : index.Loaded := .forest hload hindex
    obtain ⟨hdims, hreach, rfl⟩ := Forest.toIndex_eq_ok.mp hindex
    have hsound := Forest.sound_load hload
    obtain ⟨-, -, hmetric⟩ := Forest.fresh_load hload
    have hfound := hloaded.within_infinity hmetric hfinite hquery (hlength.trans hdims)
    refine ⟨_, hfound, ?_⟩
    have hlive : forest.live.Perm ((List.range view.size).filter forest.contains) :=
      hsound.live_perm fun slot i hhouse => (hsound.lt_directory hhouse).trans_le hreach
    have hperm := Neighbor.map_index_sort
      (Index.leafPoints ⟨forest.dims, forest.size, view, forest.metric, forest.parts⟩)
      fun i => (Metric.squaredEuclidean : Metric N Binary64).distance query (view.coordinates i)
    rw [← Forest.leafPoints_perm_of_load hload]
    exact ⟨fun h => (hperm.symm.trans h).trans hlive.symm, fun h => hperm.trans (h.trans hlive)⟩

/-- A search for everything in the index over four bytes, read again, finds them all, and one in the
forest over them finds the point alive. -/
theorem within_loaded_bytes :
    (∀ v ∈ ([0] : List UInt8), v ≤ v) ∧
    Tree.load byteSource (Stream.ofBytes (byteTree.encode byteSource.size)) =
      .ok (byteTree, ⟨[], .closed⟩) ∧
    byteTree.order.toList.Nodup ∧ byteTree.root.Tiles byteTree.size ∧
    (∃ found, (Index.ofTree byteTree byteSource (.squaredEuclidean : Metric UInt8 Binary64)).within
        [0] Distance.infinity .standard = .ok found ∧
      (found.map Neighbor.index).Perm (List.range byteSource.size)) ∧
    ∃ (bytes : List UInt8) (forest : Forest UInt8 Binary64) (rest : Stream)
      (index : Index UInt8 Binary64), (byteForest.save byteSource).toBytes = .ok bytes ∧
      Forest.load byteSource none .squaredEuclidean (Stream.ofBytes bytes) = .ok (forest, rest) ∧
      forest.toIndex byteSource = .ok index ∧
      ∃ found : List (Neighbor Binary64), index.within [0] Distance.infinity .standard = .ok found ∧
        ((found.map Neighbor.index).Perm ((List.range byteSource.size).filter forest.contains) ↔
          ∀ slot plot, forest.plot? slot = some plot → plot.tree.root.Tiles plot.tree.size) := by
  have hquery : ∀ v ∈ ([0] : List UInt8), v ≤ v := fun v _ => Nat.le_refl v.toNat
  have hload : Tree.load byteSource (Stream.ofBytes (byteTree.encode byteSource.size)) =
      .ok (byteTree, ⟨[], .closed⟩) := by decide +kernel
  have htree : Tree.ofSource byteSource ⟨2, none⟩ = .ok byteTree := by decide +kernel
  obtain ⟨hstatic, hbuilt, hdynamic⟩ := within_loaded hquery
  obtain ⟨hnodup, htiles⟩ := hbuilt _ _ _ htree
  obtain ⟨found, hfound, -, hperm⟩ := hstatic _ _ _ _ hload finite_byteSource rfl
  obtain ⟨bytes, forest, rest, index, hbytes, hforest, hindex⟩ :
      ∃ bytes forest rest index, (byteForest.save byteSource).toBytes = .ok bytes ∧
        Forest.load byteSource none (.squaredEuclidean : Metric UInt8 Binary64)
          (Stream.ofBytes bytes) = .ok (forest, rest) ∧
        forest.toIndex byteSource = .ok index := ⟨_, _, _, _, rfl, rfl, rfl⟩
  exact ⟨hquery, hload, hnodup, htiles, ⟨found, hfound, hperm.mpr ⟨hnodup, htiles⟩⟩,
    bytes, forest, rest, index, hbytes, hforest, hindex,
    hdynamic _ _ _ _ _ _ _ hforest hindex finite_byteSource rfl⟩

/-- Two points of one byte each. -/
def pairSource : Source UInt8 := Source.ofRows #[#[3], #[5]]

/-- A tree over them that stores the first twice. -/
def doubledTree : Tree UInt8 := ⟨1, 10, #[0, 0], ⟨[⟨3, 5⟩]⟩, .leaf 0 2⟩

/-- A tree over them with no leaf for the second. -/
def shortTree : Tree UInt8 := ⟨1, 10, #[0, 1], ⟨[⟨3, 5⟩]⟩, .leaf 0 1⟩

/-- The forest of that tree. -/
def shortForest : Forest UInt8 Binary64 :=
  ⟨1, ⟨10, none⟩, .squaredEuclidean, [none, some ⟨shortTree, []⟩], 2, ⟨#[some 1, some 1]⟩, 2⟩

/-- Bytes are read over which a search for everything finds a point twice, and bytes of a forest
over which it misses a point. -/
theorem point_twice_or_missed :
    Tree.load pairSource (Stream.ofBytes (doubledTree.encode 2)) =
      .ok (doubledTree, ⟨[], .closed⟩) ∧
    (Index.ofTree doubledTree pairSource (.squaredEuclidean : Metric UInt8 Binary64)).within [3]
      Distance.infinity .standard = .ok [⟨0, 0⟩, ⟨0, 0⟩] ∧
    (∃ bytes, (shortForest.save pairSource).toBytes = .ok bytes ∧
      Forest.load pairSource none .squaredEuclidean (Stream.ofBytes bytes) =
        .ok (shortForest, ⟨[], .closed⟩)) ∧
    shortForest.contains 1 = true ∧
    ∃ index, shortForest.toIndex pairSource = .ok index ∧
      index.within [3] Distance.infinity .standard = .ok [⟨0, 0⟩] := by
  have hfinite : pairSource.Finite := by
    intro i hi axis haxis
    obtain rfl : axis = 0 := Nat.lt_one_iff.mp haxis
    have hi : i < 2 := hi
    interval_cases i <;> exact ⟨_, rfl, by decide⟩
  have hquery : ∀ v ∈ ([3] : List UInt8), v ≤ v := fun v _ => Nat.le_refl v.toNat
  have htree : Tree.load pairSource (Stream.ofBytes (doubledTree.encode 2)) =
      .ok (doubledTree, ⟨[], .closed⟩) := by decide +kernel
  have hloaded : (Index.ofTree doubledTree pairSource
      (.squaredEuclidean : Metric UInt8 Binary64)).Loaded := .tree htree
  have htwice := hloaded.within_infinity rfl hfinite hquery rfl
  obtain ⟨bytes, hbytes, hforest⟩ : ∃ bytes, (shortForest.save pairSource).toBytes = .ok bytes ∧
      Forest.load pairSource none .squaredEuclidean (Stream.ofBytes bytes) =
        .ok (shortForest, ⟨[], .closed⟩) := ⟨_, rfl, rfl⟩
  have hindex : shortForest.toIndex pairSource =
      .ok ⟨1, 2, pairSource, .squaredEuclidean, shortForest.parts⟩ := rfl
  have hmissed := (Index.Loaded.forest hforest hindex).within_infinity rfl hfinite hquery rfl
  refine ⟨htree, htwice.trans (congrArg _ ?_), ⟨bytes, hbytes, hforest⟩, rfl, _, hindex,
    hmissed.trans (congrArg _ ?_)⟩
  · show Neighbor.sort [⟨0, Metric.squaredEuclidean.distance [3] [3]⟩,
      ⟨0, Metric.squaredEuclidean.distance [3] [3]⟩] = _
    rw [show Metric.squaredEuclidean.distance [(3 : UInt8)] [3] = (0 : Binary64) by decide +kernel]
    exact List.mergeSort_of_pairwise (by decide +kernel)
  · show Neighbor.sort [⟨0, Metric.squaredEuclidean.distance [3] [3]⟩] = _
    rw [show Metric.squaredEuclidean.distance [(3 : UInt8)] [3] = (0 : Binary64) by decide +kernel]
    exact List.mergeSort_singleton _

end Proximity
