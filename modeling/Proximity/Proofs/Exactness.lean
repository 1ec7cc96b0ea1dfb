import Mathlib
import Proximity.Number.Decimal
import Proximity.Proofs.Coordinate.Instances
import Proximity.Proofs.Index

/-!
# Exact answers of one tree

A tree over all points of a source answers with the first points of the source, by distance and
then by index. So neither the size of its leaves nor a box known beforehand makes a difference.
-/

namespace Proximity

variable {N D : Type}

section

variable [Coordinate N] [Distance D]

namespace Source

/-- All points of a source with their distances from a query. -/
def neighbors (source : Source N) (metric : Metric N D) (query : List N) : List (Neighbor D) :=
  (List.range source.size).map fun index =>
    ⟨index, metric.distance query (source.coordinates index)⟩

/-- Whether every coordinate of every point is there and finite. -/
def Finite (source : Source N) : Prop := ∀ index < source.size, source.FiniteAt index

/-- Whether the box known beforehand, if there is one, covers all points. -/
def Covered (source : Source N) : Prop :=
  ∀ box, source.bounds = some box →
    ∀ index < source.size, box.contains (source.coordinates index) = true

end Source

variable [LawfulCoordinate N]

/-- A tree over all points of a source is searchable if they are finite and its box covers them. -/
theorem Tree.searchable_ofSource {source : Source N} {options : BuildOptions} {tree : Tree N}
    (htree : ofSource source options = .ok tree) (hfinite : source.Finite)
    (hcovered : source.Covered) : tree.Searchable source := by
  obtain ⟨hsize, hbuilt⟩ := ofSource_eq_ok htree
  exact hbuilt.searchable (fun index hindex => hfinite index (List.mem_range.mp hindex))
    (fun box hbox index hindex => hcovered box hbox index (List.mem_range.mp hindex))
    (List.length_range.trans_le hsize)

namespace Index

/-- One tree over all points of a source answers exactly. -/
theorem sound_ofTree {source : Source N} {options : BuildOptions} {tree : Tree N}
    {metric : Metric N D} {query : List N} (htree : Tree.ofSource source options = .ok tree)
    (hfinite : source.Finite) (hcovered : source.Covered)
    (hquery : query.length = source.dims) (hmetric : metric.Bounds query) :
    (ofTree tree source metric).Sound query := by
  obtain ⟨-, hbuilt⟩ := Tree.ofSource_eq_ok htree
  have hdims : (ofTree tree source metric).dims = source.dims := hbuilt.dims_eq
  refine ⟨hquery.trans hdims.symm, hdims, hmetric, ?_⟩
  intro part hpart
  obtain rfl := List.mem_singleton.mp hpart
  exact Tree.searchable_ofSource htree hfinite hcovered

omit [Distance D] in
/-- The points of one tree are those of its source. -/
theorem neighbors_ofTree {source : Source N} {options : BuildOptions} {tree : Tree N}
    (metric : Metric N D) (query : List N) (htree : Tree.ofSource source options = .ok tree) :
    ((ofTree tree source metric).neighbors query).Perm (source.neighbors metric query) := by
  obtain ⟨-, hbuilt⟩ := Tree.ofSource_eq_ok htree
  have hpoints : (ofTree tree source metric).points = tree.order.toList := by
    simp [points, ofTree]
  rw [neighbors, hpoints]
  exact hbuilt.order_perm.map _

variable [LawfulDistance D] [ToString D] {source : Source N} {options : BuildOptions}
variable {tree : Tree N} {metric : Metric N D} {query : List N} {k : Nat}

/-- The nearest neighbors in one tree are the first of all points of its source. -/
theorem nearest_ofTree (htree : Tree.ofSource source options = .ok tree)
    (hfinite : source.Finite) (hcovered : source.Covered) (hquery : query.length = source.dims)
    (hmetric : metric.Bounds query) (hk : 0 < k) :
    (ofTree tree source metric).nearest query k =
      .ok ((Neighbor.sort (source.neighbors metric query)).take k) := by
  rw [nearest_eq (sound_ofTree htree hfinite hcovered hquery hmetric) hk,
    Neighbor.sort_congr (neighbors_ofTree metric query htree)]

/-- The nearest neighbors within a radius are the first of the points of the source within it. -/
theorem nearestWithin_ofTree (htree : Tree.ofSource source options = .ok tree)
    (hfinite : source.Finite) (hcovered : source.Covered) (hquery : query.length = source.dims)
    (hmetric : metric.Bounds query) (hk : 0 < k) {radius : D} (hradius : 0 ≤ radius) :
    (ofTree tree source metric).nearestWithin query k radius .standard =
      .ok ((Neighbor.sort ((source.neighbors metric query).filter
        (·.distance ≤ metric.ofRadius radius))).take k) := by
  rw [nearestWithin_eq (sound_ofTree htree hfinite hcovered hquery hmetric) hk hradius]
  exact congrArg (fun list => Except.ok (List.take k list))
    (Neighbor.sort_congr ((neighbors_ofTree metric query htree).filter _))

/-- One tree answers exactly: the nearest neighbors are the first of all points by distance and
then by index, those within a radius are the first of the points within it, and every other tree
over the same points gives the same answers. -/
theorem nearest_ofSource {source : Source N} {options : BuildOptions} {tree : Tree N}
    {metric : Metric N D} {query : List N} {k : Nat}
    (htree : Tree.ofSource source options = .ok tree) (hfinite : source.Finite)
    (hcovered : source.Covered) (hquery : query.length = source.dims)
    (hmetric : metric.Bounds query) (hk : 0 < k) :
    (ofTree tree source metric).nearest query k =
        .ok ((Neighbor.sort (source.neighbors metric query)).take k) ∧
      (∀ radius : D, 0 ≤ radius →
        (ofTree tree source metric).nearestWithin query k radius .standard =
          .ok ((Neighbor.sort ((source.neighbors metric query).filter
            (·.distance ≤ metric.ofRadius radius))).take k)) ∧
      ∀ bounds options' tree', ({ source with bounds } : Source N).Covered →
        Tree.ofSource { source with bounds } options' = .ok tree' →
        (ofTree tree' { source with bounds } metric).nearest query k =
            (ofTree tree source metric).nearest query k ∧
          ∀ radius : D, 0 ≤ radius →
            (ofTree tree' { source with bounds } metric).nearestWithin query k radius .standard =
              (ofTree tree source metric).nearestWithin query k radius .standard := by
  have hnearest := nearest_ofTree htree hfinite hcovered hquery hmetric hk
  have hwithin (radius : D) (hradius : 0 ≤ radius) :=
    nearestWithin_ofTree htree hfinite hcovered hquery hmetric hk hradius
  refine ⟨hnearest, hwithin, ?_⟩
  intro bounds options' tree' hcovered' htree'
  -- The box plays no part in the distances, so both trees answer from one list.
  have hfinite' : ({ source with bounds } : Source N).Finite := hfinite
  have hquery' : query.length = ({ source with bounds } : Source N).dims := hquery
  constructor
  · exact (nearest_ofTree htree' hfinite' hcovered' hquery' hmetric hk).trans hnearest.symm
  · intro radius hradius
    exact (nearestWithin_ofTree htree' hfinite' hcovered' hquery' hmetric hk hradius).trans
      (hwithin radius hradius).symm

end Index

end

/-- Four bytes on one axis, and a box known to cover all bytes. -/
def byteSource : Source UInt8 :=
  { Source.ofRows #[#[3], #[1], #[7], #[1]] with bounds := some ⟨[⟨0, 255⟩]⟩ }

/-- Every coordinate of the source is a number. -/
theorem finite_byteSource : byteSource.Finite := by
  intro index hindex axis haxis
  obtain rfl : axis = 0 := Nat.lt_one_iff.mp haxis
  have hindex : index < 4 := hindex
  interval_cases index <;> exact ⟨_, rfl, by decide⟩

/-- The source has no box, so every point is covered. -/
theorem covered_byteSource : byteSource.Covered := by
  intro box hbox index hindex
  obtain rfl := Option.some.inj hbox
  have hindex : index < 4 := hindex
  interval_cases index <;> decide

/-- The tree over the four bytes with at most two points in a leaf. -/
def byteTree : Tree UInt8 :=
  ⟨1, 2, #[3, 1, 0, 2], ⟨[⟨0, 255⟩]⟩,
    .branch 0 7 (.branch 0 2 (.leaf 0 2) (.leaf 2 3)) (.leaf 3 4)⟩

/-- The sum for the squared distance of a byte from zero. -/
def byteSquare (n : Nat) : Binary64 :=
  Metric.sum Metric.squaredDifference 0 0 [(0 : UInt8)] [UInt8.ofNat n]

/-- The squares of bytes in binary floating point grow from one byte to the next. -/
private theorem byteSquare_le_succ : ∀ n : Fin 255, byteSquare n ≤ byteSquare (n + 1) := by
  decide +kernel

/-- The squares of bytes grow with the bytes. -/
private theorem byteSquare_mono {m n : Nat} (h : m ≤ n) (hn : n ≤ 255) :
    byteSquare m ≤ byteSquare n := by
  induction n, h using Nat.le_induction with
  | base =>
    rcases Nat.lt_or_ge m 255 with hlt | hge
    · exact Comparison.left (byteSquare_le_succ ⟨m, hlt⟩)
    · obtain rfl : m = 254 + 1 := by omega
      exact Comparison.right (byteSquare_le_succ ⟨254, by decide⟩)
  | succ n _ ih => exact Comparison.trans (ih (by omega)) (byteSquare_le_succ ⟨n, by omega⟩)

/-- The squared distances of bytes from zero are what a search relies on. -/
theorem bounds_squaredEuclidean_byte :
    (Metric.squaredEuclidean : Metric UInt8 Binary64).Bounds [0] where
  total_le := by
    intro box point hdims _ hcontains
    obtain ⟨hlength, hholds⟩ := (Box.contains_iff _ _).mp hcontains
    obtain ⟨sides⟩ := box
    obtain ⟨⟨low, high⟩, rfl⟩ : ∃ side, sides = [side] := List.length_eq_one_iff.mp hdims
    obtain ⟨p, rfl⟩ := List.length_eq_one_iff.mp (hlength.trans hdims)
    have hlow : low ≤ p := (hholds 0 ⟨low, high⟩ p rfl rfl).1
    have hp := p.toNat_lt
    have hend : (Metric.squaredEuclidean : Metric UInt8 Binary64).distance [0] [p] =
        byteSquare p.toNat := by rw [byteSquare, UInt8.ofNat_toNat]; rfl
    rw [hend]
    by_cases hzero : (0 : UInt8) < low
    · have hgap : Scalar.total ((Metric.squaredEuclidean : Metric UInt8 Binary64).gaps [0]
          ⟨[⟨low, high⟩]⟩) = byteSquare low.toNat := by
        rw [byteSquare, UInt8.ofNat_toNat]
        show (0 : Binary64) + Metric.gapToEnd _ 0 0 ⟨low, high⟩ = _
        rw [Metric.gapToEnd, if_pos hzero]
        rfl
      rw [hgap]
      exact byteSquare_mono (UInt8.le_iff_toNat_le.mp hlow) (by omega)
    · have hnot : ¬ high < (0 : UInt8) := by
        rw [UInt8.lt_iff_toNat_lt]
        exact Nat.not_lt_zero _
      have hgap : Scalar.total ((Metric.squaredEuclidean : Metric UInt8 Binary64).gaps [0]
          ⟨[⟨low, high⟩]⟩) = byteSquare 0 := by
        show (0 : Binary64) + Metric.gapToEnd _ 0 0 ⟨low, high⟩ = _
        rw [Metric.gapToEnd, if_neg hzero, if_neg hnot]
        decide +kernel
      rw [hgap]
      exact byteSquare_mono (Nat.zero_le _) (by omega)
  distanceTo := by
    intro point read worst hlength _ hread
    obtain ⟨p, rfl⟩ := List.length_eq_one_iff.mp hlength
    refine ⟨_, ?_, .inl rfl⟩
    simp only [Metric.squaredEuclidean, Metric.additive, Metric.sumTo, hread 0 p rfl,
      Outcome.ok_bind, ite_self]
    rfl

/-- Exact answers over four bytes. -/
theorem nearest_bytes :
    Tree.ofSource byteSource ⟨2, none⟩ = .ok byteTree ∧ byteSource.Finite ∧ byteSource.Covered ∧
      (Index.ofTree byteTree byteSource
          (Metric.squaredEuclidean : Metric UInt8 Binary64)).nearest [0] 2 =
        .ok ((Neighbor.sort (byteSource.neighbors Metric.squaredEuclidean [0])).take 2) := by
  have htree : Tree.ofSource byteSource ⟨2, none⟩ = .ok byteTree := by decide +kernel
  have hquery : ([0] : List UInt8).length = byteSource.dims := by decide
  have hexact := Index.nearest_ofSource htree finite_byteSource covered_byteSource hquery
    bounds_squaredEuclidean_byte Nat.two_pos
  exact ⟨htree, finite_byteSource, covered_byteSource, hexact.1⟩

end Proximity
