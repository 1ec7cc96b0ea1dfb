import Mathlib
import Proximity.Index
import Proximity.Proofs.Collector.Nearest
import Proximity.Proofs.Collector.Within

/-!
# Exact answers

An index over searchable trees answers with the first of all its points that count, by distance
and then by index, whatever its trees look like and in whatever order they are searched.
-/

namespace Proximity

variable {N D : Type} [Coordinate N] [Distance D]

namespace SearchOptions

omit [Coordinate N]

/-- The distance that stands for another when a part of a tree is compared, as `Inquiry.stretch`. -/
def stretch (options : SearchOptions D) (distance : D) : D :=
  if options.slack ≤ 0 then distance else distance * (1 + options.slack)

/-- Without slack no bound is stretched. -/
theorem stretch_eq (options : SearchOptions D) (h : options.slack ≤ 0) (distance : D) :
    options.stretch distance = distance := if_pos h

end SearchOptions

namespace Index

/-- The points of an index that count, tree by tree. -/
def points (index : Index N D) : List Nat :=
  index.parts.flatMap fun part => part.tree.order.toList.filter part.isLive

/-- The points of an index that count, with their distances from a query. -/
def neighbors (index : Index N D) (query : List N) : List (Neighbor D) :=
  index.points.map fun i => ⟨i, index.metric.distance query (index.source.coordinates i)⟩

/-- Whether a query of an index is answered exactly. -/
structure Sound (index : Index N D) (query : List N) : Prop where
  length_eq : query.length = index.dims
  dims_eq : index.dims = index.source.dims
  bounds : index.metric.Bounds query
  searchable : ∀ part ∈ index.parts, part.tree.Searchable index.source

/-- The distance from a query to a point of the source. -/
def distance (index : Index N D) (query : List N) (i : Nat) : D :=
  index.metric.distance query (index.source.coordinates i)

/-- What it is stretched to with some options. -/
def reach (index : Index N D) (query : List N) (options : SearchOptions D) (i : Nat) : D :=
  options.stretch (index.distance query i)

/-- Whether a query with some options goes through all trees, and leaves out no point whose
stretched distance still counts. -/
structure Thorough [ToString D] (index : Index N D) (query : List N) (options : SearchOptions D) :
    Prop where
  valid : options.validate = .ok ()
  maxLeaves : options.maxLeaves = none
  stretch_le {a b : D} : a ≤ b → options.stretch a ≤ options.stretch b
  le_reach : ∀ i ∈ index.points, index.distance query i ≤ index.reach query options i

variable [LawfulDistance D] [ToString D] {index : Index N D} {query : List N}

omit [LawfulDistance D] in
/-- If the search of each part sees some points, then a query sees the points of all parts. -/
theorem find_of_sees {σ : Type} [Collector σ D] {distance reach : Nat → D}
    {track : σ → List Nat → Prop} {options : SearchOptions D} (hlength : query.length = index.dims)
    (hvalid : options.validate = .ok ()) (hleaves : options.maxLeaves = none)
    (ht : Tracks distance reach track) {points : Part N → List Nat}
    (hsees : ∀ part ∈ index.parts, Sees track (Inquiry.run
      ⟨part.tree, index.source, index.metric, query, options.slack, part.isLive⟩) (points part))
    {state : σ} (hstate : track state []) :
    ∃ state', index.find state query options = .ok state' ∧
      track state' (index.parts.flatMap points) := by
  have hfold (parts : List (Part N)) (hparts : ∀ part ∈ parts, part ∈ index.parts) (state : σ)
      (seen : List Nat) (hstate : track state seen) :
      ∃ state', parts.foldlM (fun progress part => Inquiry.run
          ⟨part.tree, index.source, index.metric, query, options.slack, part.isLive⟩ progress)
          ⟨state, none, true⟩ = Except.ok (⟨state', none, true⟩ : Progress σ) ∧
        track state' (parts.flatMap points ++ seen) := by
    induction parts generalizing state seen with
    | nil => exact ⟨state, rfl, hstate⟩
    | cons part parts ih =>
      obtain ⟨middle, hrun, htrack⟩ :=
        hsees part (hparts part List.mem_cons_self) state seen hstate
      obtain ⟨final, hrest, htrack⟩ :=
        ih (fun part hpart => hparts part (List.mem_cons_of_mem _ hpart)) middle _ htrack
      refine ⟨final, ?_, ?_⟩
      · rw [List.foldlM_cons, hrun]
        exact hrest
      · rw [List.flatMap_cons, List.append_assoc]
        exact ht.perm (List.perm_append_comm_assoc ..) htrack
  obtain ⟨state', hrun, htrack⟩ := hfold index.parts (fun _ h => h) state [] hstate
  rw [List.append_nil] at htrack
  refine ⟨state', ?_, htrack⟩
  unfold find
  rw [if_neg (not_not.mpr hlength), hvalid, hleaves]
  simp only [Outcome.pure_eq_ok, Outcome.ok_bind]
  rw [hrun]
  rfl

/-- A query offers every point that counts, or leaves it out as beyond its reach. -/
theorem find_reaches {σ : Type} [Collector σ D] {options : SearchOptions D}
    (h : index.Sound query) (hthorough : index.Thorough query options) {track : σ → List Nat → Prop}
    (ht : Tracks (index.distance query) (index.reach query options) track)
    {state : σ} (hstate : track state []) :
    ∃ state', index.find state query options = .ok state' ∧ track state' index.points := by
  refine find_of_sees h.length_eq hthorough.valid hthorough.maxLeaves ht (fun part hpart => ?_)
    hstate
  have hsound : Inquiry.Sound
      ⟨part.tree, index.source, index.metric, query, options.slack, part.isLive⟩ := by
    refine ⟨h.searchable part hpart, h.length_eq.trans h.dims_eq, h.bounds,
      hthorough.stretch_le, fun i hi hlive => hthorough.le_reach i ?_⟩
    exact List.mem_flatMap.mpr ⟨part, hpart, List.mem_filter.mpr
      ⟨Array.mem_toList_iff.mpr hi, hlive⟩⟩
  exact Inquiry.run_sees hsound ht

omit [ToString D] in
/-- Every point that counts has a distance. -/
theorem distance_self (h : index.Sound query) {i : Nat} (hi : i ∈ index.points) :
    index.metric.distance query (index.source.coordinates i) ≤
      index.metric.distance query (index.source.coordinates i) := by
  obtain ⟨part, hpart, hi⟩ := List.mem_flatMap.mp hi
  have hsearch := h.searchable part hpart
  have hi := Array.mem_toList_iff.mp (List.mem_of_mem_filter hi)
  exact Comparison.right (h.bounds.total_le part.tree.box _
    (hsearch.box_dims.trans (h.dims_eq.symm.trans h.length_eq.symm))
    (hsearch.finite i hi).coordinates (hsearch.covered i hi))

/-- Without slack a query leaves out nothing that is near enough. -/
theorem Sound.thorough (h : index.Sound query) {options : SearchOptions D}
    (hvalid : (0 : D) ≤ options.slack) (hexact : options.slack ≤ 0)
    (hleaves : options.maxLeaves = none) : index.Thorough query options where
  valid := if_pos hvalid
  maxLeaves := hleaves
  stretch_le hle := by rwa [options.stretch_eq hexact, options.stretch_eq hexact]
  le_reach i hi := by
    rw [reach, options.stretch_eq hexact]
    exact distance_self h hi

/-- A query offers every point that counts or leaves it out for its distance. -/
theorem find_sees {σ : Type} [Collector σ D] (h : index.Sound query)
    {track : σ → List Nat → Prop}
    (ht : Tracks (index.distance query) (index.distance query) track)
    {state : σ} (hstate : track state []) :
    ∃ state', index.find state query .standard = .ok state' ∧ track state' index.points := by
  have hzero : (0 : D) ≤ 0 := LawfulDistance.zero_le
  have hreach : index.reach query .standard = index.distance query :=
    funext fun i => SearchOptions.stretch_eq _ hzero _
  exact find_reaches h (h.thorough hzero hzero rfl) (hreach.symm ▸ ht) hstate

/-- The nearest neighbors up to a limit are the first ones within it. -/
theorem nearest_of_limit (h : index.Sound query) {k : Nat} (hk : 0 < k) (limit : D) :
    ∃ set : Nearest D, index.find (Nearest.upTo k limit) query .standard = .ok set ∧
      listNearest set .standard =
        (Neighbor.sort ((index.neighbors query).filter (·.distance ≤ limit))).take k := by
  obtain ⟨set, hrun, passed, hkeeps⟩ := find_sees h
    (Nearest.tracks (index.distance query) hk limit)
    (Nearest.follows_start _ k limit)
  exact ⟨set, hrun, hkeeps.toSorted_eq⟩

/-- The nearest neighbors are the first ones of all points that count. -/
theorem nearest_eq (h : index.Sound query) {k : Nat} (hk : 0 < k) :
    index.nearest query k = .ok ((Neighbor.sort (index.neighbors query)).take k) := by
  obtain ⟨set, hrun, hlist⟩ := nearest_of_limit h hk Distance.infinity
  have hall : (index.neighbors query).filter (·.distance ≤ (Distance.infinity : D)) =
      index.neighbors query := by
    rw [List.filter_eq_self]
    intro a ha
    obtain ⟨i, hi, rfl⟩ := List.mem_map.mp ha
    exact decide_eq_true (LawfulDistance.le_infinity (distance_self h hi))
  have hsome : requireSome k = .ok () := if_neg hk.ne'
  rw [hall] at hlist
  unfold nearest nearestWith
  rw [hsome, Outcome.ok_bind, Nearest.ofSize, hrun, Outcome.ok_bind, hlist]
  rfl

/-- The nearest neighbors within a radius are the first ones of those within it. -/
theorem nearestWithin_eq (h : index.Sound query) {k : Nat} (hk : 0 < k) {radius : D}
    (hradius : 0 ≤ radius) :
    index.nearestWithin query k radius .standard =
      .ok ((Neighbor.sort ((index.neighbors query).filter
        (·.distance ≤ index.metric.ofRadius radius))).take k) := by
  obtain ⟨set, hrun, hlist⟩ := nearest_of_limit h hk (index.metric.ofRadius radius)
  have hsome : requireSome k = .ok () := if_neg hk.ne'
  have hrange : requireRadius radius = .ok () := if_pos hradius
  unfold nearestWithin
  rw [hsome, Outcome.ok_bind, hrange, Outcome.ok_bind, hrun, Outcome.ok_bind, hlist]
  rfl

/-- The neighbors within a radius are all of those within it, in order. -/
theorem within_eq (h : index.Sound query) {radius : D} (hradius : 0 ≤ radius) :
    index.within query radius .standard =
      .ok (Neighbor.sort ((index.neighbors query).filter
        (·.distance ≤ index.metric.ofRadius radius))) := by
  obtain ⟨set, hrun, hfollows⟩ := find_sees h
    (Within.tracks (index.distance query) (index.metric.ofRadius radius)) (Within.follows_start _ _)
  have hrange : requireRadius radius = .ok () := if_pos hradius
  unfold within
  rw [hrange, Outcome.ok_bind, hrun, Outcome.ok_bind]
  exact congrArg Except.ok hfollows.toSorted_eq

omit [Coordinate N] [LawfulDistance D] [ToString D] [Distance D] in
/-- However they are listed, the neighbors listed are those kept. -/
theorem listNearest_perm (set : Nearest D) (options : SearchOptions D) :
    (listNearest set options).Perm set.kept := by
  rw [listNearest]
  split
  · exact List.reverse_perm _
  · exact .refl _

/-- Whether two indexes have the same points that count, as far as a query of their axes goes. -/
structure Matches (index other : Index N D) (query : List N) : Prop where
  dims_eq : other.dims = index.dims
  metric_eq : other.metric = index.metric
  sound : query.length = index.dims → index.Sound query
  sound' : query.length = other.dims → other.Sound query
  perm : (index.neighbors query).Perm (other.neighbors query)

omit [Coordinate N] [LawfulDistance D] in
/-- A query of other dimensions is refused, whatever the collector. -/
theorem find_of_length_ne [LT N] [DecidableLT N] {σ : Type} [Collector σ D] {state : σ}
    {options : SearchOptions D} (h : query.length ≠ index.dims) :
    index.find state query options = .error (.queryDimensions query.length index.dims) := by
  rw [find, if_pos h]
  rfl

namespace Matches

variable {other : Index N D}

/-- Indexes that match answer alike, whatever is wrong with a query. -/
theorem nearest_eq (h : index.Matches other query) (k : Nat) :
    other.nearest query k = index.nearest query k := by
  by_cases hk : k = 0
  · simp [nearest, nearestWith, requireSome, hk]
  by_cases hlength : query.length = index.dims
  · have hlength' : query.length = other.dims := hlength.trans h.dims_eq.symm
    rw [Index.nearest_eq (h.sound hlength) (Nat.pos_of_ne_zero hk),
      Index.nearest_eq (h.sound' hlength') (Nat.pos_of_ne_zero hk), Neighbor.sort_congr h.perm]
  · have hlength' : query.length ≠ other.dims := h.dims_eq ▸ hlength
    simp only [nearest, nearestWith, find_of_length_ne hlength, find_of_length_ne hlength',
      h.dims_eq]

/-- Indices that match answer alike for the nearest points within a radius. -/
theorem nearestWithin_eq (h : index.Matches other query) (k : Nat) (radius : D) :
    other.nearestWithin query k radius .standard =
      index.nearestWithin query k radius .standard := by
  by_cases hk : k = 0
  · simp [nearestWithin, requireSome, hk]
  by_cases hradius : (0 : D) ≤ radius
  · by_cases hlength : query.length = index.dims
    · have hlength' : query.length = other.dims := hlength.trans h.dims_eq.symm
      rw [Index.nearestWithin_eq (h.sound hlength) (Nat.pos_of_ne_zero hk) hradius,
        Index.nearestWithin_eq (h.sound' hlength') (Nat.pos_of_ne_zero hk) hradius, h.metric_eq,
        Neighbor.sort_congr (h.perm.filter _)]
    · have hlength' : query.length ≠ other.dims := h.dims_eq ▸ hlength
      simp only [nearestWithin, find_of_length_ne hlength, find_of_length_ne hlength', h.dims_eq]
  · simp [nearestWithin, requireRadius, hradius]

/-- Indices that match list the same points within a radius. -/
theorem within_eq (h : index.Matches other query) (radius : D) :
    other.within query radius .standard = index.within query radius .standard := by
  by_cases hradius : (0 : D) ≤ radius
  · by_cases hlength : query.length = index.dims
    · have hlength' : query.length = other.dims := hlength.trans h.dims_eq.symm
      rw [Index.within_eq (h.sound hlength) hradius, Index.within_eq (h.sound' hlength') hradius,
        h.metric_eq, Neighbor.sort_congr (h.perm.filter _)]
    · have hlength' : query.length ≠ other.dims := h.dims_eq ▸ hlength
      simp only [within, find_of_length_ne hlength, find_of_length_ne hlength', h.dims_eq]
  · simp [within, requireRadius, hradius]

end Matches

end Index

end Proximity
