import Mathlib
import Proximity.Proofs.Collector.Within
import Proximity.Proofs.Loaded
import Proximity.Proofs.Number.Sums

/-!
# Searches that leave nothing out

If nothing is beyond the radius of a query, neither a gap to any box nor a distance, then a search
opens every leaf, whatever the splits and the box of its tree are. What it finds are the points of
the leaves, which in a tree that was read need not be the points of the tree.
-/

namespace Proximity

variable {N D σ : Type} [Coordinate N]

/-- Whether nothing that a metric makes of a query is beyond a limit. -/
structure Metric.AllWithin [Scalar D] (metric : Metric N D) (query : List N) (limit : D) :
    Prop where
  total_le (box : Box N) : box.dims = query.length →
    Scalar.total (metric.gaps query box) ≤ limit
  distance_le (point : List N) : point.length = query.length →
    (∀ v ∈ point, Coordinate.IsFinite v) → metric.distance query point ≤ limit
  distanceTo (point : List N) (read : Nat → Except Error N) : point.length = query.length →
    (∀ v ∈ point, Coordinate.IsFinite v) →
    (∀ axis v, point[axis]? = some v → read axis = .ok v) →
    metric.distanceTo query read limit = .ok (metric.distance query point)

/-- The distance to a finite point is found exactly, and is within the limit. -/
theorem Metric.AllWithin.distanceTo_read [Scalar D] {metric : Metric N D} {query : List N}
    {limit : D} (h : metric.AllWithin query limit) {source : Source N} {index : Nat}
    (hlength : query.length = source.dims) (hfinite : source.FiniteAt index) :
    metric.distanceTo query (source.read index) limit =
        .ok (metric.distance query (source.coordinates index)) ∧
      metric.distance query (source.coordinates index) ≤ limit := by
  have hpoint := (Source.length_coordinates hfinite.complete).trans hlength.symm
  exact ⟨h.distanceTo _ _ hpoint hfinite.coordinates fun _ _ =>
      Source.read_of_coordinates hfinite.complete,
    h.distance_le _ hpoint hfinite.coordinates⟩

namespace Inquiry

variable [Scalar D] [Collector σ D]

/-- Whether a tree can be searched, and everything in it is within a limit. -/
structure Unpruned (inquiry : Inquiry N D) (limit : D) : Prop where
  length_eq : inquiry.query.length = inquiry.source.dims
  box_dims : inquiry.tree.box.dims = inquiry.source.dims
  finite : ∀ index ∈ inquiry.tree.order, inquiry.source.FiniteAt index
  allWithin : inquiry.metric.AllWithin inquiry.query limit
  slack : inquiry.slack ≤ 0

variable {inquiry : Inquiry N D} {limit : D} {reach : Nat → D} {track : σ → List Nat → Prop}

/-- Every point that counts is offered. -/
theorem offerPoints_all (h : inquiry.Unpruned limit) (ht : Tracks inquiry.distance reach track)
    (hworst : ∀ state seen, track state seen → Collector.worst state = limit)
    {points : List Nat} (hpoints : ∀ index ∈ points, index ∈ inquiry.tree.order)
    {state : σ} {seen : List Nat} (hstate : track state seen) :
    ∃ state', inquiry.offerPoints points state = .ok (state', true) ∧
      track state' (inquiry.live points ++ seen) := by
  induction points generalizing state seen with
  | nil => exact ⟨state, rfl, hstate⟩
  | cons index points ih =>
    have hrest := fun other hother => hpoints other (List.mem_cons_of_mem index hother)
    rw [offerPoints, live, List.filter_cons]
    by_cases hlive : inquiry.isLive index = true
    · rw [if_pos hlive, if_pos hlive]
      have hfinite := h.finite index (hpoints index List.mem_cons_self)
      have hdistance : inquiry.metric.distanceTo inquiry.query (inquiry.source.read index) limit =
          .ok (inquiry.distance index) ∧ inquiry.distance index ≤ limit :=
        h.allWithin.distanceTo_read h.length_eq hfinite
      rw [← hworst state seen hstate] at hdistance
      obtain ⟨hread, hle⟩ := hdistance
      obtain ⟨hmore, hoffer⟩ := ht.offer hstate hle
      obtain ⟨state', hrun, htrack⟩ := ih hrest hoffer
      simp only [hread, Outcome.ok_bind]
      rw [if_pos hle]
      simp only [hmore, ite_true]
      exact ⟨state', hrun, ht.perm List.perm_middle htrack⟩
    · rw [if_neg hlive, if_neg hlive]
      exact ih hrest hstate

/-- A leaf shows all its points that are alive. -/
theorem openLeaf_all (h : inquiry.Unpruned limit) (ht : Tracks inquiry.distance reach track)
    (hworst : ∀ state seen, track state seen → Collector.worst state = limit)
    {first last : Nat} (hrange : first ≤ last ∧ last ≤ inquiry.tree.order.size) :
    Sees track (inquiry.openLeaf first last)
      (inquiry.live (inquiry.tree.order.extract first last).toList) := by
  intro state seen hstate
  obtain ⟨state', hrun, htrack⟩ :=
    offerPoints_all h ht hworst (fun _ => mem_of_mem_extract) hstate
  have hread : inquiry.tree.points first last =
      .ok (inquiry.tree.order.extract first last).toList := if_pos hrange
  refine ⟨state', ?_, htrack⟩
  simp only [openLeaf, hread, Outcome.ok_bind, hrun, reduceCtorEq, ite_false]
  rfl

variable [Comparison D]

/-- A part of the tree is neither passed nor out of reach if the gaps to it are within the limit. -/
theorem reaches_of_le (h : inquiry.Unpruned limit) {nearest : D} (hle : nearest ≤ limit)
    {state : σ} (hworst : Collector.worst state = limit) :
    inquiry.passes nearest state = false ∧ inquiry.reaches nearest state = true := by
  have hstretch : inquiry.stretch nearest = nearest := if_pos h.slack
  rw [passes, reaches, hstretch, hworst]
  exact ⟨decide_eq_false (Comparison.not_lt hle), decide_eq_true hle⟩

/-- A search of a subtree offers the points of all its leaves that count. -/
theorem visit_all (h : inquiry.Unpruned limit) (ht : Tracks inquiry.distance reach track)
    (hworst : ∀ state seen, track state seen → Collector.worst state = limit)
    {node : Node N} (hfits : node.Fits inquiry.source.dims inquiry.tree.order.size)
    {cell : Box N} (hcell : cell.dims = inquiry.source.dims) :
    Sees track (inquiry.visit node (inquiry.metric.gaps inquiry.query cell)
      (Scalar.total (inquiry.metric.gaps inquiry.query cell)))
      (inquiry.live (node.points inquiry.tree.order)) := by
  have hbound {cell : Box N} (hcell : cell.dims = inquiry.source.dims) :=
    h.allWithin.total_le cell (hcell.trans h.length_eq.symm)
  induction node generalizing cell with
  | leaf first last =>
    intro state seen hstate
    have hpass := (reaches_of_le h (hbound hcell) (hworst state seen hstate)).1
    simp only [visit, hpass, Bool.not_true, Bool.or_false, Bool.false_eq_true, ite_false]
    exact openLeaf_all h ht hworst hfits state seen hstate
  | branch axis split left right ihl ihr =>
    intro state seen hstate
    obtain ⟨haxis, hleft, hright⟩ := hfits
    have hpass := (reaches_of_le h (hbound hcell) (hworst state seen hstate)).1
    have hlive : inquiry.live ((Node.branch axis split left right).points inquiry.tree.order) =
        inquiry.live (left.points inquiry.tree.order) ++
          inquiry.live (right.points inquiry.tree.order) := List.filter_append ..
    obtain ⟨v, side, hv, hside⟩ := inquiry.exists_axis (h.length_eq.symm ▸ haxis)
      (h.box_dims.symm ▸ haxis)
    have hlength : axis < cell.sides.length := haxis.trans_eq hcell.symm
    -- Either side may be the far one; both are within reach.
    have hfar (side : Side N) : (Box.mk (cell.sides.set axis side)).dims = inquiry.source.dims :=
      List.length_set.trans hcell
    rw [visit]
    simp only [hpass, hv, hside, Bool.not_true, Bool.or_false, Bool.false_eq_true, ite_false]
    by_cases hlt : v < split
    · rw [if_pos hlt, ← Metric.gaps_set inquiry.metric hv hlength]
      have hreach := (reaches_of_le h (hbound (hfar ⟨split, side.high⟩))
        (hworst state seen hstate)).2
      obtain ⟨middle, hrun, htrack⟩ := ihl hleft hcell state seen hstate
      obtain ⟨final, hrun', htrack'⟩ := ihr hright (hfar ⟨split, side.high⟩) middle _ htrack
      refine ⟨final, ?_, ?_⟩
      · simp only [hrun, Outcome.ok_bind, hreach, ite_true]
        exact hrun'
      · rw [hlive, List.append_assoc]
        exact ht.perm (List.perm_append_comm_assoc ..) htrack'
    · rw [if_neg hlt, ← Metric.gaps_set inquiry.metric hv hlength]
      have hreach := (reaches_of_le h (hbound (hfar ⟨side.low, split⟩))
        (hworst state seen hstate)).2
      obtain ⟨middle, hrun, htrack⟩ := ihr hright hcell state seen hstate
      obtain ⟨final, hrun', htrack'⟩ := ihl hleft (hfar ⟨side.low, split⟩) middle _ htrack
      refine ⟨final, ?_, ?_⟩
      · simp only [hrun, Outcome.ok_bind, hreach, ite_true]
        exact hrun'
      · rw [hlive, List.append_assoc]
        exact htrack'

/-- A search of a whole tree offers the points of all its leaves that count. -/
theorem run_all (h : inquiry.Unpruned limit) (ht : Tracks inquiry.distance reach track)
    (hworst : ∀ state seen, track state seen → Collector.worst state = limit)
    (hfits : inquiry.tree.root.Fits inquiry.source.dims inquiry.tree.order.size) :
    Sees track inquiry.run (inquiry.live (inquiry.tree.root.points inquiry.tree.order)) :=
  visit_all h ht hworst hfits h.box_dims

end Inquiry

namespace Index

variable [Storable N] [Distance D] [LawfulDistance D] [ToString D] {index : Index N D}
variable {query : List N} {radius : D}

/-- The points of the leaves of an index that count, tree by tree. -/
def leafPoints (index : Index N D) : List Nat :=
  index.parts.flatMap fun part => (part.tree.root.points part.tree.order).filter part.isLive

/-- If everything is within a radius, a search of what was read finds the points of all leaves. -/
theorem Loaded.within_all (h : index.Loaded) (hfinite : index.source.Finite)
    (hquery : query.length = index.dims) (hradius : 0 ≤ radius)
    (hall : index.metric.AllWithin query (index.metric.ofRadius radius)) :
    index.within query radius .standard = .ok (Neighbor.sort (index.leafPoints.map fun i =>
      ⟨i, index.metric.distance query (index.source.coordinates i)⟩)) := by
  obtain ⟨hdims, hparts⟩ := h.part
  have ht := Within.tracks (fun i => index.metric.distance query (index.source.coordinates i))
    (index.metric.ofRadius radius)
  have hinside {part : Part N} (hpart : part ∈ index.parts) {i : Nat}
      (hi : i ∈ part.tree.order) : index.source.FiniteAt i :=
    hfinite i ((hparts part hpart).2.1 i hi)
  have hsees (part) (hpart : part ∈ index.parts) : Sees
      (Within.Follows (fun i => index.metric.distance query (index.source.coordinates i))
        (index.metric.ofRadius radius))
      (Inquiry.run ⟨part.tree, index.source, index.metric, query, 0, part.isLive⟩)
      ((part.tree.root.points part.tree.order).filter part.isLive) := by
    obtain ⟨hpartDims, -, sourceSize, stream, rest, hread⟩ := hparts part hpart
    obtain ⟨hfits, -⟩ := Tree.read_eq_ok hread
    have hunpruned : Inquiry.Unpruned
        ⟨part.tree, index.source, index.metric, query, 0, part.isLive⟩
        (index.metric.ofRadius radius) :=
      ⟨hquery.trans hdims, hfits.box_dims.trans (hpartDims.trans hdims),
        fun i hi => hinside hpart hi, hall, LawfulDistance.zero_le⟩
    have hroot : part.tree.root.Fits index.source.dims part.tree.order.size :=
      hpartDims.trans hdims ▸ hfits.root
    exact Inquiry.run_all hunpruned ht (fun _ _ hstate => hstate.1) hroot
  have hvalid : (SearchOptions.standard : SearchOptions D).validate = .ok () :=
    if_pos LawfulDistance.zero_le
  obtain ⟨set, hrun, hfollows⟩ :=
    find_of_sees hquery hvalid rfl ht hsees (Within.follows_start _ _)
  have hfound : Nearest.found (fun i => index.metric.distance query (index.source.coordinates i))
      (index.metric.ofRadius radius) index.leafPoints = index.leafPoints.map fun i =>
        ⟨i, index.metric.distance query (index.source.coordinates i)⟩ := by
    refine List.filter_eq_self.mpr ?_
    intro neighbor hneighbor
    obtain ⟨i, hi, rfl⟩ := List.mem_map.mp hneighbor
    obtain ⟨part, hpart, hi⟩ := List.mem_flatMap.mp hi
    have hat := hinside hpart (Node.mem_of_mem_points (List.mem_of_mem_filter hi))
    refine decide_eq_true (hall.distance_le _ ?_ hat.coordinates)
    exact (Source.length_coordinates hat.complete).trans (hquery.trans hdims).symm
  have hrange : requireRadius radius = .ok () := if_pos hradius
  unfold within
  rw [hrange, Outcome.ok_bind, hrun, Outcome.ok_bind, ← hfound]
  exact congrArg Except.ok hfollows.toSorted_eq

end Index

end Proximity
