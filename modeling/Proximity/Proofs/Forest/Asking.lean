import Mathlib
import Proximity.Forest.View
import Proximity.Proofs.Exactness
import Proximity.Proofs.Forest.Loading
import Proximity.Proofs.Forest.Steps
import Proximity.Proofs.Overfull

/-!
# Exact answers of a forest

Every tree of a forest was built over points of the source that it is asked over, or of one that
has grown into it since. So each tree can be searched as it is meant, points no longer alive in it
left out, and as every point alive is alive in one tree only, a query is answered as from the list
of all points alive. It can only be lost in a tree over more points than a word can count.
-/

namespace Proximity

variable {N D : Type}

namespace Source

/-- Whether a source begins with all points of a smaller one. -/
structure Extends (source smaller : Source N) : Prop where
  dims_eq : source.dims = smaller.dims
  size_le : smaller.size ≤ source.size
  coordinate?_eq : ∀ index < smaller.size, source.coordinate? index = smaller.coordinate? index

namespace Extends

variable {source smaller : Source N} {index : Nat}

theorem refl (source : Source N) : source.Extends source := ⟨rfl, Nat.le_refl _, fun _ _ => rfl⟩

theorem trans {least : Source N} (h : source.Extends smaller) (h' : smaller.Extends least) :
    source.Extends least := by
  refine ⟨h.dims_eq.trans h'.dims_eq, h'.size_le.trans h.size_le, ?_⟩
  intro index hindex
  rw [h.coordinate?_eq index (hindex.trans_le h'.size_le), h'.coordinate?_eq index hindex]

/-- Growing leaves the points that were there where they are. -/
theorem coordinates_eq (h : source.Extends smaller) (hindex : index < smaller.size) :
    source.coordinates index = smaller.coordinates index := by
  rw [coordinates, coordinates, h.dims_eq, h.coordinate?_eq index hindex]

/-- Growing leaves the points that were there as finite as they are. -/
theorem finiteAt_iff [Coordinate N] (h : source.Extends smaller) (hindex : index < smaller.size) :
    source.FiniteAt index ↔ smaller.FiniteAt index := by
  rw [FiniteAt, FiniteAt, h.dims_eq, h.coordinate?_eq index hindex]

/-- The beginning of a finite source is finite. -/
theorem finite [Coordinate N] (h : source.Extends smaller) (hfinite : source.Finite) :
    smaller.Finite :=
  fun index hindex => (h.finiteAt_iff hindex).mp (hfinite index (hindex.trans_le h.size_le))

end Extends

end Source

/-- The splits of a node stay in order when its source grows. -/
theorem Node.Ordered.grown [Coordinate N] {source smaller : Source N} {order : Array Nat}
    {node : Node N} (hext : source.Extends smaller) (h : node.Ordered smaller order)
    (hinside : ∀ index ∈ node.points order, index < smaller.size) :
    node.Ordered source order := by
  induction node with
  | leaf first last => trivial
  | branch axis split left right ihl ihr =>
    obtain ⟨haxis, hbelow, habove, hleft, hright⟩ := h
    have hinl (index) (hindex : index ∈ left.points order) : index < smaller.size :=
      hinside index (List.mem_append_left _ hindex)
    have hinr (index) (hindex : index ∈ right.points order) : index < smaller.size :=
      hinside index (List.mem_append_right _ hindex)
    refine ⟨hext.dims_eq ▸ haxis, ?_, ?_, ihl hleft hinl, ihr hright hinr⟩
    · intro index hindex
      rw [hext.coordinate?_eq index (hinl index hindex)]
      exact hbelow index hindex
    · intro index hindex
      rw [hext.coordinate?_eq index (hinr index hindex)]
      exact habove index hindex

/-- A tree stays searchable when its source grows. -/
theorem Tree.Searchable.grown [Coordinate N] {source smaller : Source N} {tree : Tree N}
    (hext : source.Extends smaller) (h : tree.Searchable smaller)
    (hinside : ∀ index ∈ tree.order, index < smaller.size) : tree.Searchable source := by
  refine ⟨h.dims_eq.trans hext.dims_eq.symm, h.box_dims.trans hext.dims_eq.symm, ?_, ?_,
    h.points_eq, h.inRange, h.ordered.grown hext ?_⟩
  · intro index hindex
    exact (hext.finiteAt_iff (hinside index hindex)).mpr (h.finite index hindex)
  · intro index hindex
    rw [hext.coordinates_eq (hinside index hindex)]
    exact h.covered index hindex
  · intro index hindex
    rw [h.points_eq] at hindex
    exact hinside index (Array.mem_toList_iff.mp hindex)

/-- A tree can be searched as it is meant when its source grows. -/
theorem Tree.Meant.grown [Coordinate N] {source smaller : Source N} {tree : Tree N}
    (hext : source.Extends smaller) (h : tree.Meant smaller)
    (hinside : ∀ index ∈ tree.order, index < smaller.size) : tree.Meant source :=
  ⟨h.searchable.grown hext hinside, h.nodup, h.words, h.narrow⟩

/-- A directory reaches no farther than the points that are put into it. -/
theorem Directory.size_putAll_le {directory : Directory} {slot bound : Nat} {points : List Nat}
    (h : directory.size ≤ bound) (hpoints : ∀ index ∈ points, index < bound) :
    (directory.putAll slot points).size ≤ bound := by
  induction points generalizing directory with
  | nil => exact h
  | cons index points ih =>
    refine ih ?_ fun other hother => hpoints other (List.mem_cons_of_mem _ hother)
    have hindex := hpoints index List.mem_cons_self
    show (directory.put slot index).slots.size ≤ bound
    have hsize : directory.slots.size ≤ bound := h
    rw [put, Array.size_setIfInBounds, reach, Array.size_append, Array.size_replicate]
    omega

namespace Forest

variable [Coordinate N] {forest : Forest N D} {source : Source N}

/-- Whether a forest can be asked over a source. -/
structure Serves (forest : Forest N D) (source : Source N) : Prop where
  sound : forest.Sound
  dims_eq : source.dims = forest.dims
  meant : ∀ slot plot, forest.plot? slot = some plot →
    ∃ meant : Tree N, plot.tree = meant.stored ∧ meant.Meant source
  inside : ∀ slot plot, forest.plot? slot = some plot →
    ∀ index ∈ plot.tree.order, index < source.size
  directory_le : forest.directory.size ≤ source.size

namespace Serves

/-- The points alive are points of the source. -/
theorem houses_lt (h : forest.Serves source) {slot index : Nat}
    (hhouse : forest.Houses slot index) : index < source.size := by
  obtain ⟨plot, hplot, hlive⟩ := hhouse
  exact h.inside slot plot hplot index (Plot.mem_livePoints.mp hlive).1

/-- The points alive are words. -/
theorem houses_le (h : forest.Serves source) {slot index : Nat}
    (hhouse : forest.Houses slot index) : index ≤ maxWord32 := by
  obtain ⟨plot, hplot, hlive⟩ := hhouse
  obtain ⟨meant, htree, hmeant⟩ := h.meant slot plot hplot
  refine hmeant.words index ?_
  have hindex := (Plot.mem_livePoints.mp hlive).1
  rwa [htree] at hindex

/-- What an insertion merges are points of the source. -/
theorem merged_lt (h : forest.Serves source) {index point : Nat} (hindex : index < source.size)
    (hpoint : point ∈ forest.merged index) : point < source.size := by
  rcases mem_merged.mp hpoint with rfl | ⟨lower, -, hhouse⟩
  · exact hindex
  · exact h.houses_lt hhouse

/-- What an insertion merges are words. -/
theorem merged_le (h : forest.Serves source) {index point : Nat} (hindex : index ≤ maxWord32)
    (hpoint : point ∈ forest.merged index) : point ≤ maxWord32 := by
  rcases mem_merged.mp hpoint with rfl | ⟨lower, -, hhouse⟩
  · exact hindex
  · exact h.houses_le hhouse

/-- No tree has more points than the source. -/
theorem size_tree_le (h : forest.Serves source) {slot : Nat} {plot : Plot N}
    (hplot : forest.plot? slot = some plot) : plot.tree.size ≤ source.size := by
  have hsub : plot.tree.order.toList ⊆ List.range source.size := fun index hindex =>
    List.mem_range.mpr (h.inside slot plot hplot index (Array.mem_toList_iff.mp hindex))
  have hle := ((h.sound.plot slot plot hplot).nodup.subperm hsub).length_le
  rwa [List.length_range] at hle

/-- A forest without points can be asked over every source of its dimensions. -/
theorem empty {options : BuildOptions} {metric : Metric N D}
    (h : Forest.empty source.dims options metric = .ok forest) : forest.Serves source := by
  obtain ⟨-, -, -, rfl⟩ := empty_eq_ok.mp h
  exact ⟨sound_empty _ _ _ (Nat.zero_le _), rfl, fun slot plot hplot => (nomatch hplot),
    fun slot plot hplot => (nomatch hplot), Nat.zero_le _⟩

/-- A forest can still be asked when its source has grown. -/
theorem grown {smaller : Source N} (hext : source.Extends smaller) (h : forest.Serves smaller) :
    forest.Serves source := by
  refine ⟨h.sound, hext.dims_eq.trans h.dims_eq, ?_, ?_, h.directory_le.trans hext.size_le⟩
  · intro slot plot hplot
    obtain ⟨meant, htree, hmeant⟩ := h.meant slot plot hplot
    have hinside := h.inside slot plot hplot
    rw [htree] at hinside
    exact ⟨meant, htree, hmeant.grown hext hinside⟩
  · intro slot plot hplot index hindex
    exact (h.inside slot plot hplot index hindex).trans_le hext.size_le

/-- Removing a point leaves a forest that can be asked. -/
theorem remove (h : forest.Serves source) (index : Nat) :
    (forest.remove index).1.Serves source := by
  have hsound := h.sound.remove index
  rcases h.sound.remove_cases index with ⟨-, heq⟩ | ⟨slot, plot, hplot, hlive, heq⟩
  · rwa [heq]
  rw [heq] at hsound ⊢
  have htree (other found) (hfound : (forest.strike slot plot index).plot? other = some found) :
      ∃ before, forest.plot? other = some before ∧ before.tree = found.tree := by
    rw [plot?_strike hplot] at hfound
    split at hfound
    · next hsame =>
      obtain rfl := Option.some.inj hfound
      exact ⟨plot, hsame ▸ hplot, rfl⟩
    · exact ⟨found, hfound, rfl⟩
  refine ⟨hsound, h.dims_eq, ?_, ?_, ?_⟩
  · intro other found hfound
    obtain ⟨before, hbefore, hsame⟩ := htree other found hfound
    exact hsame ▸ h.meant other before hbefore
  · intro other found hfound
    obtain ⟨before, hbefore, hsame⟩ := htree other found hfound
    exact hsame ▸ h.inside other before hbefore
  · show (forest.directory.slots.setIfInBounds index none).size ≤ source.size
    rw [Array.size_setIfInBounds]
    exact h.directory_le

variable [LawfulCoordinate N]

/-- Inserting a point leaves a forest that can be asked, if the source is finite. -/
theorem insert (h : forest.Serves source) (hfinite : source.Finite) {index : Nat}
    {final : Forest N D} (hinsert : forest.insert source index = .ok final) :
    final.Serves source := by
  have hsound := h.sound.insert hinsert
  obtain ⟨tree, hinserted, rfl⟩ := insert_eq_ok hinsert
  have hinside (other) (hother : other ∈ tree.order) : other < source.size :=
    h.merged_lt hinserted.lt_size (hinserted.perm.mem_iff.mp (Array.mem_toList_iff.mpr hother))
  have hmeant : ∃ meant : Tree N, tree = meant.stored ∧ meant.Meant source :=
    (Tree.build_eq_ok hinserted.build).exists_meant
      (fun other hother => hfinite other (h.merged_lt hinserted.lt_size hother))
      (fun box hbox => (nomatch hbox))
      (hinserted.perm.nodup_iff.mp (hinserted.order_nodup h.sound))
      fun other hother => h.merged_le hinserted.le_word hother
  refine ⟨hsound, h.dims_eq, ?_, ?_, ?_⟩
  · intro slot plot hplot
    rw [plot?_settle] at hplot
    split at hplot
    · nomatch hplot
    split at hplot
    · obtain rfl := Option.some.inj hplot
      exact hmeant
    · exact h.meant slot plot hplot
  · intro slot plot hplot
    rw [plot?_settle] at hplot
    split at hplot
    · nomatch hplot
    split at hplot
    · obtain rfl := Option.some.inj hplot
      exact hinside
    · exact h.inside slot plot hplot
  · exact Directory.size_putAll_le h.directory_le fun other hother =>
      hinside other (Array.mem_toList_iff.mp hother)

end Serves

omit [Coordinate N] in
/-- What is collected from the parts of a forest is collected slot by slot. -/
theorem flatMap_parts (forest : Forest N D) (points : Part N → List Nat) :
    forest.parts.flatMap points =
      forest.slots.flatMap fun slot => slot.elim [] fun plot => points ⟨plot.tree, plot.isLive⟩ := by
  rw [parts]
  induction forest.slots with
  | nil => rfl
  | cons slot slots ih =>
    cases slot with
    | none => exact ih
    | some plot => exact congrArg (points ⟨plot.tree, plot.isLive⟩ ++ ·) ih

omit [Coordinate N] in
/-- Over all parts of a search the points listed are those alive. -/
theorem points_parts (forest : Forest N D) :
    (forest.parts.flatMap fun part => part.tree.order.toList.filter part.isLive) = forest.live :=
  flatMap_parts forest _

/-- The points alive are those of the source that the forest contains. -/
theorem Serves.live_perm (h : forest.Serves source) :
    forest.live.Perm ((List.range source.size).filter forest.contains) :=
  h.sound.live_perm fun _ _ => h.houses_lt

variable [Distance D]

/-- The points alive with their distances from a query. -/
def neighbors (forest : Forest N D) (source : Source N) (query : List N) : List (Neighbor D) :=
  ((List.range source.size).filter forest.contains).map fun index =>
    ⟨index, forest.metric.distance query (source.coordinates index)⟩

omit [Distance D] in
/-- A forest that can be asked over a source is not refused there. -/
theorem Serves.requireView_eq (h : forest.Serves source) : forest.requireView source = .ok () := by
  have hsource : forest.requireSource source = .ok () := if_neg (not_not.mpr h.dims_eq)
  rw [requireView, hsource, Outcome.ok_bind, if_neg (Nat.not_lt.mpr h.directory_le)]
  rfl

omit [Distance D] in
/-- A forest is ready to be asked over every source that it serves. -/
theorem Serves.toIndex_eq (h : forest.Serves source) : forest.toIndex source =
    .ok ⟨forest.dims, forest.size, source, forest.metric, forest.parts⟩ := by
  rw [toIndex, h.requireView_eq]
  rfl

omit [Coordinate N] [Distance D] in
/-- What holds of the trees of a forest holds of those of its parts. -/
theorem forall_mem_parts {motive : Tree N → Prop}
    (h : ∀ slot plot, forest.plot? slot = some plot → motive plot.tree) (part : Part N)
    (hpart : part ∈ forest.parts) : motive part.tree := by
  obtain ⟨plot, hplot, hpart⟩ := List.mem_filterMap.mp hpart
  obtain ⟨found, rfl, rfl⟩ := Option.map_eq_some_iff.mp hpart
  obtain ⟨slot, hslot⟩ := List.getElem?_of_mem hplot
  exact h slot found (plot?_eq_some.mpr hslot)

omit [Distance D] in
/-- What a forest is asked through keeps an index that is meant. -/
theorem Serves.exists_meant (h : forest.Serves source) : ∃ meant : Index N D,
    ⟨forest.dims, forest.size, source, forest.metric, forest.parts⟩ = meant.stored ∧
      meant.Meant :=
  Index.exists_meant h.dims_eq.symm (forall_mem_parts
    (motive := fun tree => ∃ meant : Tree N, tree = meant.stored ∧ meant.Meant source) h.meant)

omit [Distance D] in
/-- A forest is asked for neighbors among all points alive. -/
theorem Serves.neighbors_perm (h : forest.Serves source) (query : List N) :
    (Index.neighbors ⟨forest.dims, forest.size, source, forest.metric, forest.parts⟩ query).Perm
      (forest.neighbors source query) := by
  rw [Index.neighbors, Index.points, points_parts]
  exact h.live_perm.map _

omit [Distance D] in
/-- No tree over a source of no more points than a word can count is overfull. -/
theorem Serves.not_overfull (h : forest.Serves source) (hwords : source.size ≤ maxWord32) :
    ¬ Index.Overfull ⟨forest.dims, forest.size, source, forest.metric, forest.parts⟩ := by
  rintro ⟨part, hpart, hover⟩
  have hle := forall_mem_parts (motive := fun tree => tree.size ≤ source.size)
    (fun slot plot hplot => h.size_tree_le hplot) part hpart
  exact absurd (hle.trans hwords) (Nat.not_le.mpr hover)

/-- A forest that can be asked over a source answers as from the list of all points alive, unless
the answer is lost in a tree over more points than a word can count. -/
theorem Serves.nearest [LawfulDistance D] [ToString D] (h : forest.Serves source) {query : List N}
    (hquery : query.length = source.dims) (hmetric : forest.metric.Bounds query) {k : Nat}
    (hk : 0 < k) :
    ∃ index, forest.toIndex source = .ok index ∧
      (source.size ≤ maxWord32 → ¬ index.Overfull) ∧
      (index.nearest query k = .ok ((Neighbor.sort (forest.neighbors source query)).take k) ∨
        index.Lost (index.nearest query k)) := by
  obtain ⟨meant, hstored, hmeant⟩ := h.exists_meant
  have hperm := h.neighbors_perm query
  have hfits := h.not_overfull
  have hindex := h.toIndex_eq
  have hlength : query.length = meant.dims :=
    hquery.trans (h.dims_eq.trans (congrArg Index.dims hstored))
  have hsame : forest.metric = meant.metric := congrArg Index.metric hstored
  have hbounds : meant.metric.Bounds query := hsame ▸ hmetric
  rw [hstored] at hperm hfits hindex
  rw [Index.neighbors_stored] at hperm
  refine ⟨_, hindex, hfits, (hmeant.nearestWith_stored query k .standard).imp_left fun hsame => ?_⟩
  rw [Index.nearest, hsame]
  exact (Index.nearest_eq (hmeant.sound hlength hbounds) hk).trans
    (congrArg (fun list => Except.ok (List.take k list)) (Neighbor.sort_congr hperm))

end Forest

end Proximity
