import Mathlib
import Proximity.Proofs.Number.Growing
import Proximity.Proofs.Ready
import Proximity.Proofs.Trace

/-!
# Metrics that searches cannot tell apart

A search sees of a distance whether it is at most the worst that still counts, and its value only if
it is. So two metrics with the same gaps make one search, whatever the collector is, if the
distances of each point are equal or neither of them counts. This is so of the sums of squares with
and without giving up, in the arithmetic that the machine has: sums of squares only grow when they
are rounded, up to infinity, or become no number for good.
-/

namespace Proximity

variable {N D σ : Type}

/-- Whether two distances are the same as far as a worst value goes. -/
def CountsAlike [LE D] (worst distance other : D) : Prop :=
  distance = other ∨ ¬ distance ≤ worst ∧ ¬ other ≤ worst

/-- Whether two metrics both find a distance to the point that is read, and these count alike. -/
def Metric.AlikeAt [LE D] (metric other : Metric N D) (query : List N)
    (read : Nat → Except Error N) : Prop :=
  ∀ worst, ∃ distance distance', metric.distanceTo query read worst = .ok distance ∧
    other.distanceTo query read worst = .ok distance' ∧ CountsAlike worst distance distance'

namespace Inquiry

/-- The same question under another metric. -/
def under (inquiry : Inquiry N D) (metric : Metric N D) : Inquiry N D :=
  { inquiry with metric }

/-- Whether a search cannot tell the metric from another one. -/
structure Blind [LE D] (inquiry : Inquiry N D) (other : Metric N D) : Prop where
  gap_eq : inquiry.metric.gap = other.gap
  alikeAt : ∀ index ∈ inquiry.tree.order, inquiry.isLive index = true →
    inquiry.metric.AlikeAt other inquiry.query (inquiry.source.read index)

variable [Scalar D] [Collector σ D] {inquiry : Inquiry N D} {other : Metric N D}

/-- The same of some points of the tree is offered. -/
theorem Blind.traceOffers (h : inquiry.Blind other) {points : List Nat}
    (hpoints : ∀ index ∈ points, index ∈ inquiry.tree.order) (state : σ) :
    (inquiry.under other).traceOffers points state = inquiry.traceOffers points state := by
  induction points generalizing state with
  | nil => rfl
  | cons index points ih =>
    have hrest := ih fun i hi => hpoints i (List.mem_cons_of_mem index hi)
    rw [Inquiry.traceOffers, Inquiry.traceOffers]
    by_cases hlive : inquiry.isLive index = true
    · obtain ⟨distance, distance', hfound, hfound', hsame⟩ :=
        h.alikeAt index (hpoints index List.mem_cons_self) hlive (Collector.worst state)
      have hlive' : (inquiry.under other).isLive index = true := hlive
      have hother : (inquiry.under other).metric.distanceTo (inquiry.under other).query
        ((inquiry.under other).source.read index) (Collector.worst state) = .ok distance' := hfound'
      simp only [if_pos hlive, if_pos hlive', hfound, hother]
      obtain rfl | ⟨hfar, hfar'⟩ := hsame
      · simp only [hrest]
      · simp only [if_neg hfar, if_neg hfar', hrest]
    · have hlive' : ¬ (inquiry.under other).isLive index = true := hlive
      rw [if_neg hlive, if_neg hlive', hrest]

/-- What a leaf offers is the same under both metrics. -/
theorem Blind.traceLeaf (h : inquiry.Blind other) (first last : Nat) (progress : Progress σ) :
    (inquiry.under other).traceLeaf first last progress =
      inquiry.traceLeaf first last progress := by
  rw [Inquiry.traceLeaf, Inquiry.traceLeaf]
  split
  · rfl
  · have htree : (inquiry.under other).tree = inquiry.tree := rfl
    rw [htree]
    cases hread : inquiry.tree.points first last with
    | error e => rfl
    | ok points => simp only [h.traceOffers fun _ => Tree.mem_order_of_points hread]

variable [LT N] [DecidableLT N]

/-- A part of the tree is searched alike. -/
theorem Blind.trace (h : inquiry.Blind other) (node : Node N) (gaps : List D) (nearest : D)
    (progress : Progress σ) : (inquiry.under other).trace node gaps nearest progress =
      inquiry.trace node gaps nearest progress := by
  have hgap : (inquiry.under other).metric.gap = inquiry.metric.gap := h.gap_eq.symm
  induction node generalizing gaps nearest progress with
  | leaf first last =>
    rw [Inquiry.trace, Inquiry.trace, h.traceLeaf]
    rfl
  | branch axis split left right ihl ihr =>
    rw [Inquiry.trace, Inquiry.trace]
    simp only [ihl, ihr, hgap]
    rfl

/-- A search from the root takes the same steps under both metrics. -/
theorem Blind.trace_root (h : inquiry.Blind other) (progress : Progress σ) :
    (inquiry.under other).trace inquiry.tree.root (inquiry.under other).gaps
        (Scalar.total (inquiry.under other).gaps) progress =
      inquiry.trace inquiry.tree.root inquiry.gaps (Scalar.total inquiry.gaps) progress := by
  have hgaps : (inquiry.under other).gaps = inquiry.gaps := by
    have hgap : (inquiry.under other).metric.gap = inquiry.metric.gap := h.gap_eq.symm
    rw [gaps, gaps, hgap]
    rfl
  rw [hgaps, h.trace]

end Inquiry

namespace Metric

variable [Coordinate N] {read : Nat → Except Error N} {query : List N} {axis : Nat}

/-- A sum of squares is at most what all of it is at most. -/
theorem le_of_sumTo_le {acc d worst : Binary64} (hacc : acc.Grown)
    (h : sumTo squaredDifference read (fun _ => false) axis acc query = .ok d) (hle : d ≤ worst) :
    acc ≤ worst := by
  induction query generalizing axis acc with
  | nil => exact Except.ok.inj h ▸ hle
  | cons v query ih =>
    rw [sumTo] at h
    obtain ⟨w, -, hrest⟩ := Outcome.bind_eq_ok.mp h
    rw [if_neg Bool.false_ne_true] at hrest
    exact hacc.le_of_add_le (ih (hacc.add_square _) hrest)

/-- A sum of squares that is given up does not count, and neither does all of it. -/
theorem sumTo_countsAlike (hread : ∀ i < query.length, ∃ v, read (axis + i) = .ok v)
    {acc : Binary64} (hacc : acc.Grown) (worst : Binary64) :
    ∃ d d', sumTo squaredDifference read (worst < ·) axis acc query = .ok d ∧
      sumTo squaredDifference read (fun _ => false) axis acc query = .ok d' ∧
      CountsAlike worst d d' := by
  induction query generalizing axis acc with
  | nil => exact ⟨acc, acc, rfl, rfl, .inl rfl⟩
  | cons v query ih =>
    obtain ⟨⟨w, hw⟩, hrest⟩ := step_axis (P := fun axis => ∃ v, read axis = .ok v) hread
    have hgrown : (acc + squaredDifference axis v w).Grown := hacc.add_square _
    rw [sumTo, sumTo, hw, Outcome.ok_bind, Outcome.ok_bind]
    by_cases habove : worst < acc + squaredDifference axis v w
    · obtain ⟨d', hd'⟩ : ∃ d', sumTo squaredDifference read (fun _ => false) (axis + 1)
          (acc + squaredDifference axis v w) query = .ok d' := sumTo_found _ _ hrest
      refine ⟨acc + squaredDifference axis v w, d', if_pos (decide_eq_true habove), ?_, .inr ?_⟩
      · rwa [if_neg Bool.false_ne_true]
      · exact ⟨Comparison.not_ge habove,
          fun hle => Comparison.not_ge habove (le_of_sumTo_le hgrown hd' hle)⟩
    · rw [if_neg (by simpa using habove), if_neg Bool.false_ne_true]
      exact ih hrest hgrown

/-- With and without giving up, the sums of squares to a point that can be read count alike. -/
theorem alikeAt_squaredEuclidean (hread : ∀ axis < query.length, ∃ v, read axis = .ok v) :
    (squaredEuclidean : Metric N Binary64).AlikeAt simpleSquaredEuclidean query read := by
  intro worst
  show ∃ d d', _ ∧ squaredTo read query = .ok d' ∧ _
  rw [squaredTo_eq Binary64.zero_add_square]
  have hread (i : Nat) (hi : i < query.length) : ∃ v, read (0 + i) = .ok v := by
    rw [Nat.zero_add]
    exact hread i hi
  exact sumTo_countsAlike hread (.inr LawfulDistance.zero_le) worst

end Metric

namespace Index

/-- The same index under another metric. -/
def under (index : Index N D) (metric : Metric N D) : Index N D :=
  { index with metric }

/-- Whether the coordinates of all points that count can be read. -/
def Readable (index : Index N D) : Prop :=
  ∀ part ∈ index.parts, ∀ point ∈ part.tree.order, part.isLive point = true →
    ∀ axis < index.dims, (index.source.coordinate? point axis).isSome

/-- What is ready to be asked can be read. -/
theorem Ready.readable {N : Type} [Coordinate N] [LawfulCoordinate N] [Storable N]
    {index : Index N D} {alive : List Nat} (h : index.Ready alive) : index.Readable := by
  obtain ⟨meant, rfl, hmeant, -⟩ := h.exists_meant
  intro part hpart point hpoint _ axis haxis
  obtain ⟨kept, hkept, rfl⟩ := List.mem_map.mp hpart
  have hfinite := (hmeant.tree kept hkept).searchable.finite point hpoint
  exact hfinite.complete axis (haxis.trans_eq hmeant.dims_eq)

variable [LT N] [DecidableLT N] [Distance D] [ToString D] [Collector σ D]
variable {index : Index N D} {other : Metric N D}

omit [ToString D] in
/-- Trees are searched alike one after the other. -/
theorem traceParts_under {query : List N} {slack : D} {parts : List (Part N)}
    (h : ∀ part ∈ parts, Inquiry.Blind
      ⟨part.tree, index.source, index.metric, query, slack, part.isLive⟩ other)
    (progress : Progress σ) : (index.under other).traceParts query slack parts progress =
      index.traceParts query slack parts progress := by
  induction parts generalizing progress with
  | nil => rfl
  | cons part parts ih =>
    obtain ⟨hpart, hrest⟩ := List.forall_mem_cons.mp h
    exact congrArg₂ Traced.andThen (hpart.trace_root progress) (funext (ih hrest))

/-- A query is answered alike, leaf by leaf and offer by offer. -/
theorem trace_under {query : List N} {options : SearchOptions D}
    (h : query.length = index.dims → ∀ part ∈ index.parts, Inquiry.Blind
      ⟨part.tree, index.source, index.metric, query, options.slack, part.isLive⟩ other)
    (start : σ) : (index.under other).trace start query options =
      index.trace start query options := by
  rw [trace, trace]
  show (if query.length ≠ index.dims then _ else _) = _
  by_cases hlength : query.length ≠ index.dims
  · rw [if_pos hlength, if_pos hlength]
    rfl
  · rw [if_neg hlength, if_neg hlength]
    cases options.validate with
    | error e => rfl
    | ok _ =>
      dsimp only
      rw [← traceParts_under (h (not_not.mp hlength))]
      rfl

section Squares

variable {N : Type} [Coordinate N] {index : Index N Binary64}

/-- A search for sums of squares cannot tell whether points are given up. -/
theorem Readable.blind (h : index.Readable) {query : List N} (hquery : query.length = index.dims)
    (slack : Binary64) : ∀ part ∈ index.parts, Inquiry.Blind
      ⟨part.tree, index.source, .squaredEuclidean, query, slack, part.isLive⟩
      .simpleSquaredEuclidean := by
  intro part hpart
  refine ⟨rfl, fun point hpoint hlive => Metric.alikeAt_squaredEuclidean fun axis haxis => ?_⟩
  obtain ⟨v, hv⟩ := Option.isSome_iff_exists.mp (h part hpart point hpoint hlive axis
    (hquery ▸ haxis))
  exact ⟨v, Source.read_eq_ok.mpr hv⟩

/-- With and without giving up, sums of squares make the same searches: whatever is asked and
whatever the collector does, the same leaves are opened, the same neighbors are offered of each in
the same order, and the same comes of it. So the same neighbors are found. -/
theorem Readable.searches_same (h : index.Readable) (query : List N)
    (options : SearchOptions Binary64) :
    (∀ {σ : Type} [Collector σ Binary64] (start : σ),
      (index.under .simpleSquaredEuclidean).trace start query options =
          (index.under .squaredEuclidean).trace start query options ∧
        (index.under .simpleSquaredEuclidean).find start query options =
          (index.under .squaredEuclidean).find start query options) ∧
      (∀ k, (index.under .simpleSquaredEuclidean).nearestWith query k options =
        (index.under .squaredEuclidean).nearestWith query k options) ∧
      (∀ k radius, (index.under .simpleSquaredEuclidean).nearestWithin query k radius options =
        (index.under .squaredEuclidean).nearestWithin query k radius options) ∧
      ∀ radius, (index.under .simpleSquaredEuclidean).within query radius options =
        (index.under .squaredEuclidean).within query radius options := by
  have htrace {σ : Type} [Collector σ Binary64] (start : σ) :
      (index.under .simpleSquaredEuclidean).trace start query options =
        (index.under .squaredEuclidean).trace start query options := by
    show ((index.under .squaredEuclidean).under .simpleSquaredEuclidean).trace start query options =
      _
    refine trace_under (fun hquery => ?_) start
    exact h.blind hquery options.slack
  have hfind {σ : Type} [Collector σ Binary64] (start : σ) :
      (index.under .simpleSquaredEuclidean).find start query options =
        (index.under .squaredEuclidean).find start query options := by
    rw [← result_trace, ← result_trace, htrace]
  refine ⟨fun start => ⟨htrace start, hfind start⟩, fun k => ?_, fun k radius => ?_,
    fun radius => ?_⟩
  · rw [nearestWith, nearestWith, hfind]
  · rw [nearestWithin, nearestWithin]
    show _ = requireSome k >>= fun _ => _
    simp only [hfind]
    rfl
  · rw [within, within]
    simp only [hfind]
    rfl

/-- Three points on three axes. -/
def cubeSource : Source UInt8 := .ofRows #[#[0, 0, 0], #[9, 9, 9], #[1, 2, 3]]

/-- The tree over the three points with at most two of them in a leaf. -/
def cubeTree : Tree UInt8 :=
  ⟨3, 2, #[0, 2, 1], ⟨[⟨0, 9⟩, ⟨0, 9⟩, ⟨0, 9⟩]⟩, .branch 0 4 (.leaf 0 2) (.leaf 2 3)⟩

/-- In a cube the nearest neighbors are found alike. -/
theorem searches_same_cube :
    Tree.ofSource cubeSource ⟨2, none⟩ = .ok cubeTree ∧
    (ofTree cubeTree cubeSource (.squaredEuclidean : Metric UInt8 Binary64)).Readable ∧
    (ofTree cubeTree cubeSource (.simpleSquaredEuclidean : Metric UInt8 Binary64)).nearestWith
        [1, 1, 1] 2 .standard =
      (ofTree cubeTree cubeSource (.squaredEuclidean : Metric UInt8 Binary64)).nearestWith
        [1, 1, 1] 2 .standard := by
  have htree : Tree.ofSource cubeSource ⟨2, none⟩ = .ok cubeTree := by decide +kernel
  have hfinite : cubeSource.Finite := by
    intro index hindex axis haxis
    have hindex : index < 3 := hindex
    have haxis : axis < 3 := haxis
    interval_cases index <;> interval_cases axis <;> exact ⟨_, rfl, by decide⟩
  have hreadable : (ofTree cubeTree cubeSource
      (.squaredEuclidean : Metric UInt8 Binary64)).Readable :=
    (Ready.tree .squaredEuclidean htree hfinite nofun).readable
  exact ⟨htree, hreadable, (hreadable.searches_same [1, 1, 1] .standard).2.1 2⟩

end Squares

end Index

end Proximity
