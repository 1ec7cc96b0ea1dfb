import Mathlib
import Proximity.Proofs.Tree.Growth
import Proximity.Tree.Search

/-!
# What a search offers

A search carries a lower bound of every distance below the node it is at: the sum of the gaps to
some box around the points there. Crossing a split replaces one side of that box by the part of
the root's side beyond the split. A node is left out when the bound is above the worst distance
that still counts, and so are all its points. With slack the bound is stretched before, and what is
left out is out of reach if its distance is stretched as well. Collectors are reasoned about in
terms of the points seen so far, whether they were offered or left out.
-/

namespace Proximity

variable {N D σ : Type}

section Metric

variable [Coordinate N] [Scalar D]

/-- The gaps between a query and a box, axis by axis. -/
def Metric.gaps (metric : Metric N D) (query : List N) (box : Box N) : List D :=
  (query.zip box.sides).zipIdx.map fun ((v, side), axis) => metric.gap axis v side

/-- What a search relies on: no point of a box is nearer than the gaps to the box add up to, and
the distance to a point is exact unless it is above the worst that still counts. -/
structure Metric.Bounds (metric : Metric N D) (query : List N) : Prop where
  total_le (box : Box N) (point : List N) : box.dims = query.length →
    (∀ v ∈ point, Coordinate.IsFinite v) → box.contains point = true →
    Scalar.total (metric.gaps query box) ≤ metric.distance query point
  distanceTo (point : List N) (read : Nat → Except Error N) (worst : D) :
    point.length = query.length → (∀ v ∈ point, Coordinate.IsFinite v) →
    (∀ axis v, point[axis]? = some v → read axis = .ok v) →
    ∃ d, metric.distanceTo query read worst = .ok d ∧
      (d = metric.distance query point ∨ worst < metric.distance query point ∧ worst < d)

omit [Coordinate N] [Scalar D] in
theorem Metric.getElem?_gaps (metric : Metric N D) (query : List N) (box : Box N) (axis : Nat) :
    (metric.gaps query box)[axis]? =
      query[axis]?.bind fun v => box.sides[axis]?.map fun side => metric.gap axis v side := by
  rw [gaps, List.getElem?_map, List.getElem?_zipIdx, List.zip, List.getElem?_zipWith,
    Nat.zero_add]
  cases query[axis]? <;> cases box.sides[axis]? <;> rfl

omit [Coordinate N] [Scalar D] in
/-- Replacing one side of a box replaces one gap. -/
theorem Metric.gaps_set (metric : Metric N D) {query : List N} {box : Box N} {axis : Nat} {v : N}
    (hv : query[axis]? = some v) (haxis : axis < box.sides.length) (side : Side N) :
    metric.gaps query ⟨box.sides.set axis side⟩ =
      (metric.gaps query box).set axis (metric.gap axis v side) := by
  apply List.ext_getElem?
  intro i
  rw [getElem?_gaps, List.getElem?_set, List.getElem?_set, getElem?_gaps]
  by_cases heq : axis = i
  · subst heq
    have hlt : axis < (metric.gaps query box).length := by
      by_contra hge
      have hnone := List.getElem?_eq_none (Nat.le_of_not_lt hge)
      rw [getElem?_gaps, hv, List.getElem?_eq_getElem haxis] at hnone
      nomatch hnone
    rw [if_pos rfl, if_pos rfl, if_pos hlt, hv, if_pos haxis]
    rfl
  · rw [if_neg heq, if_neg heq]

end Metric

section Collector

variable [Scalar D] [Collector σ D]

/-- What a collector keeps track of the points seen, offered to it for their distance or left out as
beyond its reach. -/
structure Tracks (distance reach : Nat → D) (track : σ → List Nat → Prop) : Prop where
  perm {state seen seen'} : seen.Perm seen' → track state seen → track state seen'
  offer {state seen index} : track state seen → distance index ≤ Collector.worst state →
    (Collector.offer state (distance index) index).2 = true ∧
      track (Collector.offer state (distance index) index).1 (index :: seen)
  skip {state seen index} : track state seen → ¬ reach index ≤ Collector.worst state →
    track state (index :: seen)

/-- Points that are all too far may be left out together. -/
theorem Tracks.skip_all {distance reach : Nat → D} {track : σ → List Nat → Prop}
    (h : Tracks distance reach track) {state : σ} {seen points : List Nat}
    (hstate : track state seen) (hfar : ∀ index ∈ points, ¬ reach index ≤ Collector.worst state) :
    track state (points ++ seen) := by
  induction points with
  | nil => exact hstate
  | cons index points ih =>
    exact h.skip (ih fun other hother => hfar other (List.mem_cons_of_mem _ hother))
      (hfar index List.mem_cons_self)

/-- Whether what still counts can be told from the points seen, and a point that is offered still
counts afterwards. -/
structure Steers (distance : Nat → D) (track : σ → List Nat → Prop) : Prop
    extends Tracks distance distance track where
  worst_eq {state state' seen} : track state seen → track state' seen →
    Collector.worst state = Collector.worst state'
  le_worst {state seen index} : track state seen → distance index ≤ Collector.worst state →
    distance index ≤ Collector.worst (Collector.offer state (distance index) index).1

/-- Whether a part of a search goes on to its end and has then seen some more points. -/
def Sees (track : σ → List Nat → Prop) (run : Progress σ → Except Error (Progress σ))
    (points : List Nat) : Prop :=
  ∀ state seen, track state seen →
    ∃ state', run ⟨state, none, true⟩ = .ok ⟨state', none, true⟩ ∧ track state' (points ++ seen)

end Collector

namespace Inquiry

variable [Coordinate N] [Scalar D] [Comparison D] [Collector σ D]

/-- The distance to a point of the source. -/
def distance (inquiry : Inquiry N D) (index : Nat) : D :=
  inquiry.metric.distance inquiry.query (inquiry.source.coordinates index)

/-- What the distance to a point is stretched to. -/
def reach (inquiry : Inquiry N D) (index : Nat) : D := inquiry.stretch (inquiry.distance index)

omit [Coordinate N] [Scalar D] [Comparison D] [Collector σ D] in
/-- An axis of the query and of the box of the tree has a value and a side. -/
theorem exists_axis (inquiry : Inquiry N D) {axis : Nat} (hquery : axis < inquiry.query.length)
    (hbox : axis < inquiry.tree.box.dims) :
    ∃ v side, inquiry.query[axis]? = some v ∧ inquiry.tree.box.sides[axis]? = some side :=
  ⟨_, _, List.getElem?_eq_getElem hquery, List.getElem?_eq_getElem hbox⟩

/-- The points of an arrangement that count. -/
def live (inquiry : Inquiry N D) (points : List Nat) : List Nat := points.filter inquiry.isLive

/-- Whether a search may rely on its tree, its metric and its slack. -/
structure Sound (inquiry : Inquiry N D) : Prop where
  searchable : inquiry.tree.Searchable inquiry.source
  length_eq : inquiry.query.length = inquiry.source.dims
  bounds : inquiry.metric.Bounds inquiry.query
  stretch_le {a b : D} : a ≤ b → inquiry.stretch a ≤ inquiry.stretch b
  le_reach : ∀ index ∈ inquiry.tree.order, inquiry.isLive index = true →
    inquiry.distance index ≤ inquiry.reach index

variable {inquiry : Inquiry N D} {track : σ → List Nat → Prop}

/-- The next point of a leaf is offered if it counts and is near enough. -/
theorem offerPoints_cons (h : inquiry.Sound) {index : Nat} (hindex : index ∈ inquiry.tree.order)
    (points : List Nat) (state : σ) : inquiry.offerPoints (index :: points) state =
      if inquiry.isLive index = true ∧ inquiry.distance index ≤ Collector.worst state then
        if (Collector.offer state (inquiry.distance index) index).2 then
          inquiry.offerPoints points (Collector.offer state (inquiry.distance index) index).1
        else .ok ((Collector.offer state (inquiry.distance index) index).1, false)
      else inquiry.offerPoints points state := by
  rw [offerPoints]
  by_cases hlive : inquiry.isLive index = true
  · have hfinite := h.searchable.finite index hindex
    obtain ⟨d, hd, hcases⟩ := h.bounds.distanceTo (inquiry.source.coordinates index)
      (inquiry.source.read index) (Collector.worst state)
      ((Source.length_coordinates hfinite.complete).trans h.length_eq.symm)
      hfinite.coordinates fun _ _ => Source.read_of_coordinates hfinite.complete
    simp only [hlive, hd, Outcome.ok_bind, ite_true, true_and]
    by_cases hle : d ≤ Collector.worst state
    · obtain rfl : d = inquiry.distance index :=
        hcases.resolve_right fun hfar => Comparison.not_ge hfar.2 hle
      rw [if_pos hle]
    · have hfar : ¬ inquiry.distance index ≤ Collector.worst state := by
        rcases hcases with rfl | ⟨hfar, -⟩
        · exact hle
        · exact Comparison.not_ge hfar
      rw [if_neg hle, if_neg hfar]
  · rw [if_neg hlive, if_neg fun hboth => hlive hboth.1]

/-- The points of a leaf are seen one by one. -/
theorem offerPoints_sees (h : inquiry.Sound) (ht : Tracks inquiry.distance inquiry.reach track)
    {points : List Nat} (hpoints : ∀ index ∈ points, index ∈ inquiry.tree.order)
    {state : σ} {seen : List Nat} (hstate : track state seen) :
    ∃ state', inquiry.offerPoints points state = .ok (state', true) ∧
      track state' (inquiry.live points ++ seen) := by
  induction points generalizing state seen with
  | nil => exact ⟨state, rfl, hstate⟩
  | cons index points ih =>
    obtain ⟨hindex, hrest⟩ := List.forall_mem_cons.mp hpoints
    have hmove : (index :: (inquiry.live points ++ seen)).Perm
        (inquiry.live points ++ index :: seen) := List.perm_middle.symm
    rw [offerPoints_cons h hindex, live, List.filter_cons]
    by_cases hlive : inquiry.isLive index = true
    · simp only [hlive, true_and, ite_true]
      by_cases hle : inquiry.distance index ≤ Collector.worst state
      · obtain ⟨hmore, hoffer⟩ := ht.offer hstate hle
        obtain ⟨state', hrun, htrack⟩ := ih hrest hoffer
        rw [if_pos hle, if_pos hmore]
        exact ⟨state', hrun, ht.perm hmove.symm htrack⟩
      · have hout : ¬ inquiry.reach index ≤ Collector.worst state := fun hin =>
          hle (Comparison.trans (h.le_reach index hindex hlive) hin)
        obtain ⟨state', hrun, htrack⟩ := ih hrest (ht.skip hstate hout)
        rw [if_neg hle]
        exact ⟨state', hrun, ht.perm hmove.symm htrack⟩
    · rw [if_neg fun hboth => hlive hboth.1, if_neg hlive]
      exact ih hrest hstate

omit [Collector σ D] in
/-- Points whose distances are all above the bound of their node are left out with it. -/
private theorem far_of_bound (h : inquiry.Sound) {points : List Nat} {nearest worst : D}
    (hbound : ∀ index ∈ points, nearest ≤ inquiry.distance index)
    (hfar : ¬ inquiry.stretch nearest ≤ worst) :
    ∀ index ∈ points, ¬ inquiry.reach index ≤ worst :=
  fun index hindex hle => hfar (Comparison.trans (h.stretch_le (hbound index hindex)) hle)

omit [Comparison D] [Collector σ D] in
/-- The gaps to a box around some points of the tree bound their distances. -/
theorem bound_of_cell (h : inquiry.Sound) {points : List Nat} {cell : Box N}
    (hcell : cell.dims = inquiry.source.dims)
    (hpoints : ∀ index ∈ points, index ∈ inquiry.tree.order)
    (hin : ∀ index ∈ points, cell.contains (inquiry.source.coordinates index) = true) :
    ∀ index ∈ points,
      Scalar.total (inquiry.metric.gaps inquiry.query cell) ≤ inquiry.distance index :=
  fun index hindex => h.bounds.total_le cell _ (hcell.trans h.length_eq.symm)
    (h.searchable.finite index (hpoints index hindex)).coordinates (hin index hindex)

omit [Comparison D] [Collector σ D] in
/-- The part of a box beyond a split holds the points there. -/
theorem contains_set (h : inquiry.Sound) {points : List Nat} {cell : Box N}
    (hpoints : ∀ index ∈ points, index ∈ inquiry.tree.order)
    (hin : ∀ index ∈ points, cell.contains (inquiry.source.coordinates index) = true)
    {axis : Nat} (haxis : axis < inquiry.source.dims) {side : Side N}
    (hside : ∀ index ∈ points, ∀ v, inquiry.source.coordinate? index axis = some v →
      side.Holds v) :
    ∀ index ∈ points, (Box.mk (cell.sides.set axis side)).contains
      (inquiry.source.coordinates index) = true := by
  intro index hindex
  have hcomplete := (h.searchable.finite index (hpoints index hindex)).complete
  obtain ⟨hlength, hall⟩ := (Box.contains_iff _ _).mp (hin index hindex)
  refine (Box.contains_iff _ _).mpr
    ⟨hlength.trans (List.length_set : (cell.sides.set axis side).length = _).symm, ?_⟩
  intro i other v hother hv
  rw [List.getElem?_set] at hother
  by_cases heq : axis = i
  · subst heq
    rw [if_pos rfl] at hother
    split at hother
    · rw [Source.getElem?_coordinates hcomplete haxis] at hv
      exact Option.some.inj hother ▸ hside index hindex v hv
    · nomatch hother
  · rw [if_neg heq] at hother
    exact hall i other v hother hv

omit [Collector σ D] [Comparison D] in
/-- The side of the root's box on an axis holds the coordinates of all points. -/
theorem root_holds (h : inquiry.Sound) {axis : Nat} (haxis : axis < inquiry.source.dims)
    {side : Side N} (hside : inquiry.tree.box.sides[axis]? = some side) {index : Nat}
    (hindex : index ∈ inquiry.tree.order) {v : N}
    (hv : inquiry.source.coordinate? index axis = some v) : side.Holds v := by
  apply ((Box.contains_iff _ _).mp (h.searchable.covered index hindex)).2 axis side v hside
  rwa [Source.getElem?_coordinates (h.searchable.finite index hindex).complete haxis]

/-- All points of a part that is passed are left out. -/
private theorem track_of_passes (h : inquiry.Sound)
    (ht : Tracks inquiry.distance inquiry.reach track) {points : List Nat} {nearest : D}
    (hbound : ∀ index ∈ points, nearest ≤ inquiry.distance index) {state : σ} {seen : List Nat}
    (hstate : track state seen) (hpass : inquiry.passes nearest state = true) :
    track state (inquiry.live points ++ seen) := by
  rw [passes, decide_eq_true_eq] at hpass
  refine ht.skip_all hstate fun index hindex => ?_
  exact far_of_bound h hbound (Comparison.not_ge hpass) index (List.mem_of_mem_filter hindex)

/-- All points of a leaf that is opened are seen. -/
private theorem openLeaf_sees (h : inquiry.Sound) (ht : Tracks inquiry.distance inquiry.reach track)
    {first last : Nat} (hrange : first ≤ last ∧ last ≤ inquiry.tree.order.size)
    (hpoints : ∀ index ∈ (inquiry.tree.order.extract first last).toList,
      index ∈ inquiry.tree.order) :
    Sees track (inquiry.openLeaf first last)
      (inquiry.live (inquiry.tree.order.extract first last).toList) := by
  intro state seen hstate
  obtain ⟨state', hrun, htrack⟩ := offerPoints_sees h ht hpoints hstate
  have hread : inquiry.tree.points first last =
      .ok (inquiry.tree.order.extract first last).toList := if_pos hrange
  refine ⟨state', ?_, htrack⟩
  simp only [openLeaf, hread, Outcome.ok_bind, hrun, reduceCtorEq, ite_false]
  rfl

/-- Going to the near side first and to the far side if it was in reach before sees both. -/
private theorem sees_both (h : inquiry.Sound) (ht : Tracks inquiry.distance inquiry.reach track)
    {near far : Progress σ → Except Error (Progress σ)} {nearPoints farPoints : List Nat}
    (hnear : Sees track near nearPoints) (hfar : Sees track far farPoints) {nearest : D}
    (hbound : ∀ index ∈ farPoints, nearest ≤ inquiry.distance index) {state : σ}
    {seen : List Nat} (hstate : track state seen) :
    ∃ state', (near ⟨state, none, true⟩ >>= fun progress =>
        if inquiry.reaches nearest state then far progress else .ok progress) =
          .ok ⟨state', none, true⟩ ∧ track state' (farPoints ++ (nearPoints ++ seen)) := by
  by_cases hreach : inquiry.reaches nearest state = true
  · obtain ⟨middle, hrun, htrack⟩ := hnear state seen hstate
    obtain ⟨final, hrun', htrack'⟩ := hfar middle _ htrack
    exact ⟨final, by rw [hrun, Outcome.ok_bind, if_pos hreach, hrun'], htrack'⟩
  · -- The far side is decided on before the near one is searched, so it is left out first.
    have hout : ¬ inquiry.stretch nearest ≤ Collector.worst state := by
      rwa [reaches, decide_eq_true_eq] at hreach
    obtain ⟨final, hrun, htrack⟩ := hnear state _
      (ht.skip_all hstate (far_of_bound h hbound hout))
    refine ⟨final, by rw [hrun, Outcome.ok_bind, if_neg hreach], ?_⟩
    exact ht.perm (List.perm_append_comm_assoc ..) htrack

/-- A search of a subtree sees exactly its points that count, if the gaps it is given are those
to a box around them. -/
theorem visit_sees (h : inquiry.Sound) (ht : Tracks inquiry.distance inquiry.reach track)
    (node : Node N) (hrange : node.InRange inquiry.tree.order.size)
    (hordered : node.Ordered inquiry.source inquiry.tree.order)
    (hpoints : ∀ index ∈ node.points inquiry.tree.order, index ∈ inquiry.tree.order)
    {cell : Box N} (hcell : cell.dims = inquiry.source.dims)
    (hin : ∀ index ∈ node.points inquiry.tree.order,
      cell.contains (inquiry.source.coordinates index) = true) :
    Sees track (inquiry.visit node (inquiry.metric.gaps inquiry.query cell)
      (Scalar.total (inquiry.metric.gaps inquiry.query cell)))
      (inquiry.live (node.points inquiry.tree.order)) := by
  induction node generalizing cell with
  | leaf first last =>
    intro state seen hstate
    rw [visit]
    by_cases hpass : inquiry.passes (Scalar.total (inquiry.metric.gaps inquiry.query cell)) state
    · exact ⟨state, by simp only [hpass, Bool.or_true, ite_true],
        track_of_passes h ht (bound_of_cell h hcell hpoints hin) hstate hpass⟩
    · simp only [hpass, Bool.not_true, Bool.or_false, Bool.false_eq_true, ite_false]
      exact openLeaf_sees h ht hrange hpoints state seen hstate
  | branch axis split left right ihl ihr =>
    intro state seen hstate
    obtain ⟨haxis, hbelow, habove, hleft, hright⟩ := hordered
    have hleftPoints := fun index hindex => hpoints index (List.mem_append_left _ hindex)
    have hrightPoints := fun index hindex => hpoints index (List.mem_append_right _ hindex)
    have hleftIn := fun index hindex => hin index (List.mem_append_left _ hindex)
    have hrightIn := fun index hindex => hin index (List.mem_append_right _ hindex)
    have hlive : inquiry.live ((Node.branch axis split left right).points inquiry.tree.order) =
        inquiry.live (left.points inquiry.tree.order) ++
          inquiry.live (right.points inquiry.tree.order) := List.filter_append ..
    rw [visit]
    by_cases hpass : inquiry.passes (Scalar.total (inquiry.metric.gaps inquiry.query cell)) state
    · exact ⟨state, by simp only [hpass, Bool.or_true, ite_true],
        track_of_passes h ht (bound_of_cell h hcell hpoints hin) hstate hpass⟩
    · obtain ⟨v, side, hv, hside⟩ := inquiry.exists_axis (h.length_eq.symm ▸ haxis)
        (h.searchable.box_dims.symm ▸ haxis)
      have hlength : axis < cell.sides.length := haxis.trans_eq hcell.symm
      simp only [hpass, hv, hside, Bool.not_true, Bool.or_false, Bool.false_eq_true, ite_false]
      by_cases hlt : v < split
      · rw [if_pos hlt, ← Metric.gaps_set inquiry.metric hv hlength]
        have hfar (index) (hindex : index ∈ right.points inquiry.tree.order) (w)
            (hw : inquiry.source.coordinate? index axis = some w) :
            (⟨split, side.high⟩ : Side N).Holds w := by
          obtain ⟨u, hu, hle⟩ := habove index hindex
          obtain rfl := Option.some.inj (hu.symm.trans hw)
          exact ⟨hle, (root_holds h haxis hside (hrightPoints index hindex) hw).2⟩
        have hfarIn := contains_set h hrightPoints hrightIn haxis hfar
        have hfarCell : (Box.mk (cell.sides.set axis ⟨split, side.high⟩)).dims =
            inquiry.source.dims := List.length_set.trans hcell
        obtain ⟨final, hrun, htrack⟩ := sees_both h ht
          (ihl hrange.1 hleft hleftPoints hcell hleftIn)
          (ihr hrange.2 hright hrightPoints hfarCell hfarIn)
          (fun index hindex => bound_of_cell h hfarCell hrightPoints hfarIn index
            (List.mem_of_mem_filter hindex)) hstate
        refine ⟨final, hrun, ?_⟩
        rw [hlive, List.append_assoc]
        exact ht.perm (List.perm_append_comm_assoc ..) htrack
      · rw [if_neg hlt, ← Metric.gaps_set inquiry.metric hv hlength]
        have hfar (index) (hindex : index ∈ left.points inquiry.tree.order) (w)
            (hw : inquiry.source.coordinate? index axis = some w) :
            (⟨side.low, split⟩ : Side N).Holds w := by
          obtain ⟨u, hu, hle⟩ := hbelow index hindex
          obtain rfl := Option.some.inj (hu.symm.trans hw)
          exact ⟨(root_holds h haxis hside (hleftPoints index hindex) hw).1, hle⟩
        have hfarIn := contains_set h hleftPoints hleftIn haxis hfar
        have hfarCell : (Box.mk (cell.sides.set axis ⟨side.low, split⟩)).dims =
            inquiry.source.dims := List.length_set.trans hcell
        obtain ⟨final, hrun, htrack⟩ := sees_both h ht
          (ihr hrange.2 hright hrightPoints hcell hrightIn)
          (ihl hrange.1 hleft hleftPoints hfarCell hfarIn)
          (fun index hindex => bound_of_cell h hfarCell hleftPoints hfarIn index
            (List.mem_of_mem_filter hindex)) hstate
        refine ⟨final, hrun, ?_⟩
        rw [hlive, List.append_assoc]
        exact htrack

/-- A search of a whole tree sees exactly its points that count. -/
theorem run_sees (h : inquiry.Sound) (ht : Tracks inquiry.distance inquiry.reach track) :
    Sees track inquiry.run (inquiry.live inquiry.tree.order.toList) := by
  have hpoints := h.searchable.points_eq
  have hmem : ∀ index ∈ inquiry.tree.root.points inquiry.tree.order, index ∈ inquiry.tree.order :=
    fun index hindex => Array.mem_toList_iff.mp (hpoints ▸ hindex)
  have hvisit := visit_sees h ht inquiry.tree.root h.searchable.inRange h.searchable.ordered hmem
    h.searchable.box_dims fun index hindex => h.searchable.covered index (hmem index hindex)
  rw [hpoints] at hvisit
  exact hvisit

end Inquiry

end Proximity
