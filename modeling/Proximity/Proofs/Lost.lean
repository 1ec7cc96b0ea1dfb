import Mathlib
import Proximity.Collector.Recorder
import Proximity.Proofs.Forest.History
import Proximity.Proofs.Slack
import Proximity.Proofs.Tree.Progress

/-!
# Queries that are lost

A tree over one point more than a word can count keeps its last leaf with its end lost. A point of
that leaf lies on the left of no split, so a search around it comes to that leaf first and fails.
There are such trees: with the largest leaves a forest takes in every point that there is a word
for, and the last of them is merged with all others.
-/

namespace Proximity

variable {N D σ : Type}

/-- The range of the last leaf of a node. -/
def Node.lastLeaf : Node N → Nat × Nat
  | .leaf first last => (first, last)
  | .branch _ _ _ right => right.lastLeaf

namespace Node

variable {node : Node N} {order : Array Nat} {index : Nat}

/-- The right-most leaf is one of the leaves. -/
theorem lastLeaf_mem (node : Node N) : node.lastLeaf ∈ node.leaves := by
  induction node with
  | leaf first last => exact List.mem_singleton_self _
  | branch axis split left right _ ihr => exact List.mem_append_right _ ihr

/-- What is listed in the right-most leaf is listed in the tree. -/
theorem mem_points_of_lastLeaf
    (h : index ∈ (order.extract node.lastLeaf.1 node.lastLeaf.2).toList) :
    index ∈ node.points order := by
  induction node with
  | leaf first last => exact h
  | branch axis split left right _ ihr => exact List.mem_append_right _ (ihr h)

/-- The right-most leaf of a narrow tree holds no more points than a word counts. -/
theorem Narrow.lastLeaf (h : node.Narrow) : node.lastLeaf.2 - node.lastLeaf.1 ≤ maxWord32 := by
  induction node with
  | leaf first last => exact h
  | branch axis split left right _ ihr => exact ihr h.2

end Node

variable [Coordinate N] [LawfulCoordinate N] {source : Source N} {points : List Nat}

/-- The last leaf of a subtree ends after the last of its points. -/
theorem Grows.lastLeaf_snd {leafSize first : Nat} {box : Box N} {order : List Nat} {node : Node N}
    (h : Grows source leafSize first box points node order) :
    node.lastLeaf.2 = first + points.length := by
  induction h with
  | leaf _ => rfl
  | @branch first box points cut lower upper left right leftOrder rightOrder _ hcut _ _ _ _ _
      ihr =>
    have hlength := (Source.cut_perm hcut).length_eq
    rw [List.length_append] at hlength
    rw [Node.lastLeaf, ihr]
    omega

/-- A search around a point of the last leaf comes to that leaf before any other. -/
theorem Inquiry.visit_lastLeaf [Scalar D] [Collector σ D] (inquiry : Inquiry N D) {index : Nat}
    {node : Node N} (hordered : node.Ordered inquiry.source inquiry.tree.order)
    (hindex : index ∈
      (inquiry.tree.order.extract node.lastLeaf.1 node.lastLeaf.2).toList)
    (hcomplete : inquiry.source.Complete index)
    (hquery : inquiry.query = inquiry.source.coordinates index)
    (hbox : inquiry.tree.box.dims = inquiry.source.dims) {gaps : List D} {nearest : D}
    {progress : Progress σ} {e : Error} (hgoing : progress.going = true)
    (hpass : inquiry.passes nearest progress.state = false)
    (hfail : inquiry.openLeaf (toWord32 node.lastLeaf.1) (toWord32 node.lastLeaf.2) progress =
      .error e) : inquiry.visit node.stored gaps nearest progress = .error e := by
  induction node with
  | leaf first last =>
    rw [Node.stored, visit, hgoing, hpass]
    exact hfail
  | branch axis split left right _ ihr =>
    obtain ⟨haxis, -, hright, -, hordered⟩ := hordered
    obtain ⟨v, hv, hle⟩ := hright index (Node.mem_points_of_lastLeaf hindex)
    have hasked : inquiry.query[axis]? = some v := by
      rw [hquery, Source.getElem?_coordinates hcomplete haxis, hv]
    have hlt : axis < inquiry.tree.box.sides.length := haxis.trans_eq hbox.symm
    have hside := List.getElem?_eq_getElem hlt
    have hfirst := ihr hordered hindex hfail
    rw [Node.stored, visit, hgoing, hpass, hasked, hside]
    dsimp only
    rw [if_neg (Comparison.not_lt hle), hfirst]
    rfl

namespace Tree

variable {options : BuildOptions} {bounds : Option (Box N)} {tree : Tree N}

/-- In every tree over one point more than a word can count, there is a point that no search around
it gets past. -/
theorem Built.exists_lost (h : Built source options points bounds tree)
    (hfinite : ∀ index ∈ points, source.FiniteAt index)
    (hcover : ∀ box, bounds = some box →
      ∀ index ∈ points, box.contains (source.coordinates index) = true)
    (hfull : points.length = maxWord32 + 1) :
    ∃ index ∈ points, ∃ first, ∀ {D σ : Type} [Scalar D] [Collector σ D]
      (inquiry : Inquiry N D) (progress : Progress σ),
      inquiry.tree = tree → inquiry.source = source →
      inquiry.query = source.coordinates index → progress.going = true →
      progress.leaves = none → inquiry.passes (Scalar.total inquiry.gaps) progress.state = false →
      inquiry.run progress = .error (.missingPoints first 0) := by
  obtain ⟨node, hgrows, hroot⟩ := h.grows
  have hcomplete (index) (hindex : index ∈ points) := (hfinite index hindex).complete
  have hencloses : tree.box.Encloses source points := h.encloses fun box hbox =>
    Source.encloses_of_contains hcomplete (hcover box hbox)
  have habut := hgrows.abut h.leafSize_ne_zero h.box_dims hencloses hfinite h.points_ne_nil
  have hlast : node.lastLeaf.2 = maxWord32 + 1 := by
    rw [hgrows.lastLeaf_snd, Nat.zero_add, hfull]
  have hlt := (habut.lt_and_le _ node.lastLeaf_mem).1
  have hnarrow := (hgrows.narrow h.leafSize_le).lastLeaf
  have hsome : 0 < (tree.order.extract node.lastLeaf.1 node.lastLeaf.2).toList.length := by
    have hsize : tree.order.size = points.length := h.size_eq
    rw [Array.length_toList, Array.size_extract]
    omega
  obtain ⟨index, hindex⟩ := List.exists_mem_of_length_pos hsome
  have hordered := (h.searchable_of_grows hgrows hfinite hcover).ordered
  have hin : index ∈ points := by
    have hmem := Node.mem_points_of_lastLeaf hindex
    rw [(h.searchable_of_grows hgrows hfinite hcover).points_eq] at hmem
    exact h.order_perm.mem_iff.mp hmem
  refine ⟨index, hin, node.lastLeaf.1, ?_⟩
  rintro D σ _ _ inquiry progress rfl rfl hquery hgoing hleaves hpass
  rw [Inquiry.run, hroot]
  refine inquiry.visit_lastLeaf hordered hindex (hcomplete index hin) hquery h.box_dims hgoing
    hpass ?_
  have hfirst : toWord32 node.lastLeaf.1 = node.lastLeaf.1 := toWord32_of_le (by omega)
  have hmissing : inquiry.tree.points node.lastLeaf.1 0 =
      .error (.missingPoints node.lastLeaf.1 0) := if_neg (by omega)
  rw [hlast, toWord32_succ, hfirst, Inquiry.openLeaf, hleaves, hmissing]
  rfl

/-- With the largest leaves and no cap a tree is built over all points that there are words for. -/
theorem exists_build_largest (hdims : source.dims ≠ 0) (hfew : source.dims ≤ maxWord16)
    (hpoints : points ≠ []) (hfinite : ∀ index ∈ points, source.FiniteAt index)
    (hwords : points.length ≤ maxWord32 + 1) :
    ∃ tree, build source ⟨maxWord32, none⟩ points none = .ok tree := by
  have hcomplete (index) (hindex : index ∈ points) := (hfinite index hindex).complete
  have hbuildable : Buildable source ⟨maxWord32, none⟩ points none :=
    ⟨BuildOptions.validate_eq_ok.mpr ⟨by decide, le_rfl⟩, hdims, hfew, hpoints, hcomplete, nofun⟩
  obtain ⟨box, hbox⟩ := hbuildable.exists_rootBox
  obtain ⟨hboxDims, hencloses⟩ := hbuildable.rootBox_covers hbox
  by_cases hfits : points.length ≤ maxWord32
  · have hgrows : Grows source maxWord32 0 box points _ points := .leaf hfits
    exact ⟨_, hbuildable.build_of_grows hbox hgrows (show 1 ≤ maxWord32 by decide)⟩
  -- Neither part of the cut is empty, so each fits a leaf.
  have hmany : maxWord32 < points.length := Nat.lt_of_not_le hfits
  obtain ⟨cut, lower, upper, hcut, -, hlower, -, hupper⟩ :=
    Source.exists_parts hdims hboxDims hcomplete hpoints
  obtain ⟨hbelow, habove⟩ := Source.cut_ne_nil_of_finite hboxDims hfinite hencloses
    ((show 2 ≤ maxWord32 by decide).trans hmany.le) hcut
  have hlength := (Source.cut_perm hcut).length_eq
  rw [List.length_append] at hlength
  have hposl := List.length_pos_of_ne_nil hbelow
  have hposr := List.length_pos_of_ne_nil habove
  have hleft : Grows source maxWord32 0 lower cut.below _ cut.below := .leaf (by omega)
  have hright : Grows source maxWord32 (0 + cut.below.length) upper cut.above _ cut.above :=
    .leaf (by omega)
  have hgrows := Grows.branch hmany hcut hlower hupper hleft hright
  exact ⟨_, hbuildable.build_of_grows hbox hgrows (show 3 ≤ maxWord32 by decide)⟩

end Tree

/-- As many points as a word can count and one more, all at one place. -/
def zeroSource : Source UInt8 := ⟨maxWord32 + 1, 1, fun _ _ => some 0, none⟩

/-- Every point of the source is at zero. -/
theorem finite_zeroSource : zeroSource.Finite := by
  intro index _ axis _
  exact ⟨0, rfl, by decide⟩

/-- The leaves of a tree over all of them do not follow one another to the last one. -/
theorem not_abut_full : zeroSource.Finite ∧ (List.range (maxWord32 + 1)).Nodup ∧
    (∀ index ∈ List.range (maxWord32 + 1), index < zeroSource.size) ∧
    ∃ tree, Tree.build zeroSource ⟨maxWord32, none⟩ (List.range (maxWord32 + 1)) none = .ok tree ∧
      ¬ Abut maxWord32 0 tree.root.leaves (List.range (maxWord32 + 1)).length := by
  have hlength : (List.range (maxWord32 + 1)).length = maxWord32 + 1 := List.length_range
  have hinside (index) (hindex : index ∈ List.range (maxWord32 + 1)) : index < zeroSource.size :=
    List.mem_range.mp hindex
  have hnodup : (List.range (maxWord32 + 1)).Nodup := List.nodup_range
  -- The list is too long to be looked at.
  generalize List.range (maxWord32 + 1) = points at hlength hinside hnodup ⊢
  have hsome : points ≠ [] := List.ne_nil_of_length_eq_add_one hlength
  obtain ⟨tree, htree⟩ : ∃ tree, Tree.build zeroSource ⟨maxWord32, none⟩ points none = .ok tree :=
    Tree.exists_build_largest Nat.one_ne_zero (by decide) hsome
      (fun index hindex => finite_zeroSource index (hinside index hindex)) hlength.le
  refine ⟨finite_zeroSource, hnodup, hinside, tree, htree, fun habut => ?_⟩
  have hle := (Tree.build_eq_ok htree).length_le_of_abut habut
  omega

namespace Forest

/-- Whether a forest with the largest leaves has taken in so many points of a source, the first
ones. -/
structure Filled (source : Source N) (forest : Forest N D) (count : Nat) : Prop where
  serves : forest.Serves source
  options_eq : forest.options = ⟨maxWord32, none⟩
  counter_eq : forest.counter = count
  contains_iff : ∀ i, forest.contains i = true ↔ i < count

namespace Filled

variable {forest : Forest N D} {count : Nat}

omit [LawfulCoordinate N] in
/-- A forest without points is filled up to zero. -/
theorem empty {metric : Metric N D}
    (h : Forest.empty source.dims ⟨maxWord32, none⟩ metric = .ok forest) :
    Filled source forest 0 := by
  have hserves : forest.Serves source := .empty h
  obtain ⟨-, -, -, rfl⟩ := empty_eq_ok.mp h
  refine ⟨hserves, rfl, rfl, fun i => ⟨fun hin => ?_, fun hlt => absurd hlt i.not_lt_zero⟩⟩
  nomatch hin

omit [LawfulCoordinate N] in
/-- As many points are alive as were taken in. -/
theorem length_live (h : Filled source forest count) (hcount : count ≤ source.size) :
    forest.live.length = count := by
  have hperm : forest.live.Perm (List.range count) := by
    refine (List.perm_ext_iff_of_nodup h.serves.sound.live_nodup List.nodup_range).mpr fun i => ?_
    rw [h.serves.live_perm.mem_iff, List.mem_filter, List.mem_range, List.mem_range,
      h.contains_iff]
    omega
  rw [hperm.length_eq, List.length_range]

omit [LawfulCoordinate N] in
/-- An insertion merges points of the source, no more than were taken in before and the new one. -/
theorem merged (h : Filled source forest count) (hcount : count < source.size) :
    (∀ index ∈ forest.merged count, index < source.size) ∧
      (forest.merged count).length ≤ count + 1 := by
  constructor
  · intro index hindex
    rcases mem_merged.mp hindex with rfl | ⟨lower, -, hhouse⟩
    · exact hcount
    · exact h.serves.houses_lt hhouse
  · have hlive := h.length_live hcount.le
    rw [live_eq forest (carry 64 forest.counter), List.length_append] at hlive
    rw [Forest.merged, List.length_append, List.length_singleton]
    omega

/-- The next point can be taken in, as long as there is a word for it. -/
theorem exists_inserted (h : Filled source forest count) (hfinite : source.Finite)
    (hdims : source.dims ≠ 0) (hfew : source.dims ≤ maxWord16) (hcount : count < source.size)
    (hword : count ≤ maxWord32) : ∃ tree, forest.Inserted source count tree ∧
      Filled source (forest.settle (carry 64 forest.counter) tree) (count + 1) := by
  obtain ⟨hin, hlength⟩ := h.merged hcount
  have hsome : forest.merged count ≠ [] := List.append_ne_nil_of_right_ne_nil _ (by simp)
  obtain ⟨tree, hbuild⟩ := Tree.exists_build_largest hdims hfew hsome
    (fun index hindex => hfinite index (hin index hindex)) (by omega)
  have hroom : forest.counter < maxWord64 := by
    rw [h.counter_eq]
    exact hword.trans_lt (by decide)
  have habsent : forest.contains count = false :=
    Bool.eq_false_iff.mpr fun hin => absurd ((h.contains_iff count).mp hin) (Nat.lt_irrefl count)
  have hinserted : forest.Inserted source count tree :=
    ⟨⟨h.serves.dims_eq, hcount, hword, habsent, hroom⟩, h.options_eq ▸ hbuild⟩
  refine ⟨tree, hinserted, h.serves.insert hfinite hinserted.insert_eq, h.options_eq,
    congrArg (· + 1) h.counter_eq, fun i => ?_⟩
  rw [hinserted.contains_settle h.serves.sound, h.contains_iff]
  omega

/-- All points that there are words for can be taken in one after the other. -/
theorem insertRange (h : Filled source forest count) (hfinite : source.Finite)
    (hdims : source.dims ≠ 0) (hfew : source.dims ≤ maxWord16) {more : Nat}
    (hmore : count + more ≤ source.size) (hword : count + more ≤ maxWord32 + 1) :
    (insertRange source more count forest).1.metric = forest.metric ∧
      Filled source (insertRange source more count forest).1 (count + more) := by
  induction more generalizing count forest with
  | zero => exact ⟨rfl, h⟩
  | succ more ih =>
    obtain ⟨tree, hinserted, hnext⟩ := h.exists_inserted hfinite hdims hfew (by omega) (by omega)
    rw [Forest.insertRange, hinserted.insert_eq]
    obtain ⟨hmetric, hfilled⟩ := ih hnext (by omega) (by omega)
    refine ⟨hmetric, ?_⟩
    rwa [Nat.add_assoc, Nat.add_comm 1 more] at hfilled

/-- The last point that there is a word for is merged with all others, into the only tree. -/
theorem last (h : Filled source forest maxWord32) (hfinite : source.Finite)
    (hdims : source.dims ≠ 0) (hfew : source.dims ≤ maxWord16)
    (hsize : maxWord32 < source.size) : ∃ tree, forest.Inserted source maxWord32 tree ∧
      forest.insert source maxWord32 = .ok (forest.settle 32 tree) ∧
      Filled source (forest.settle 32 tree) (maxWord32 + 1) ∧
      (forest.settle 32 tree).parts = [⟨tree, (Plot.ofTree tree).isLive⟩] ∧
      tree.size = maxWord32 + 1 := by
  obtain ⟨tree, hinserted, hfilled⟩ := h.exists_inserted hfinite hdims hfew hsize le_rfl
  have hcarry : carry 64 forest.counter = 32 := by
    rw [h.counter_eq]
    rfl
  have hinsert := hinserted.insert_eq
  rw [hcarry] at hfilled hinsert
  -- The digits of the counter are those below, so no slot above is occupied.
  have habove : ∀ slot ∈ forest.slots.drop 33, slot = none := by
    intro slot hslot
    cases slot with
    | none => rfl
    | some plot =>
      obtain ⟨place, hplace⟩ := List.getElem?_of_mem hslot
      rw [List.getElem?_drop] at hplace
      have hset := h.serves.sound.counted _ _ (plot?_eq_some.mpr hplace)
      have hlt : maxWord32 < 2 ^ (33 + place) :=
        (show maxWord32 < 2 ^ 33 by decide).trans_le (Nat.pow_le_pow_right Nat.two_pos (by omega))
      rw [h.counter_eq, Nat.testBit_lt_two_pow hlt] at hset
      nomatch hset
  refine ⟨tree, hinserted, hinsert, hfilled, ?_, ?_⟩
  · have hnone : (forest.slots.drop 33).filterMap
        (fun plot => plot.map fun plot => (⟨plot.tree, plot.isLive⟩ : Part N)) = [] :=
      List.filterMap_eq_nil_iff.mpr fun slot hslot => by rw [habove slot hslot, Option.map_none]
    rw [parts, settle, List.filterMap_append, List.filterMap_cons, hnone]
    rfl
  · have hlive := hfilled.length_live hsize
    have hnone : forest.pointsAbove 32 = [] :=
      List.flatMap_eq_nil_iff.mpr fun slot hslot => by rw [habove slot hslot, Option.elim_none]
    rwa [live_settle, hnone, List.append_nil, Array.length_toList] at hlive

end Filled

end Forest

variable [Distance D] [LawfulDistance D] [ToString D]

/-- Of an index with one tree over one point more than a word can count, there is a point around
which every search fails that has no limit but infinity to begin with. -/
theorem Index.exists_lost (index : Index N D) {options : BuildOptions} {bounds : Option (Box N)}
    {tree : Tree N} {isLive : Nat → Bool} (hparts : index.parts = [⟨tree, isLive⟩])
    (hdims : index.source.dims = index.dims)
    (h : Tree.Built index.source options points bounds tree)
    (hfinite : ∀ i ∈ points, index.source.FiniteAt i)
    (hcover : ∀ box, bounds = some box →
      ∀ i ∈ points, box.contains (index.source.coordinates i) = true)
    (hfull : points.length = maxWord32 + 1) :
    ∃ i ∈ points, ∀ {σ : Type} [Collector σ D] (start : σ) (options : SearchOptions D),
      0 ≤ options.slack → options.maxLeaves = none →
      Collector.worst start = (Distance.infinity : D) →
      index.Lost (index.find start (index.source.coordinates i) options) := by
  obtain ⟨i, hi, first, hlost⟩ := h.exists_lost hfinite hcover hfull
  refine ⟨i, hi, fun {σ} _ start options hslack hleaves hworst =>
    ⟨⟨⟨tree, isLive⟩, ?_, ?_⟩, first, ?_⟩⟩
  · rw [hparts]
    exact List.mem_singleton_self _
  · show maxWord32 < tree.size
    rw [h.size_eq, hfull]
    exact Nat.lt_succ_self _
  have hlength : ¬ (index.source.coordinates i).length ≠ index.dims :=
    not_not.mpr ((Source.length_coordinates (hfinite i hi).complete).trans hdims)
  have hvalid : options.validate = .ok () := if_pos hslack
  let inquiry : Inquiry N D :=
    ⟨tree, index.source, index.metric, index.source.coordinates i, options.slack, isLive⟩
  have hpass : inquiry.passes (Scalar.total inquiry.gaps) start = false := by
    rw [Inquiry.passes, hworst]
    exact decide_eq_false (LawfulDistance.not_infinity_lt _)
  have hrun : inquiry.run ⟨start, none, true⟩ = .error (.missingPoints first 0) :=
    hlost inquiry _ rfl rfl rfl rfl rfl hpass
  rw [find, if_neg hlength, hparts, hvalid, hleaves]
  simp only [Outcome.ok_bind, List.foldlM_cons]
  rw [hrun]
  rfl

/-- Over every source of one point more than a word can count, whatever the metric, there is a
forest with all points in which searches around some point fail. -/
theorem Forest.exists_lost (hfinite : source.Finite) (hdims : source.dims ≠ 0)
    (hfew : source.dims ≤ maxWord16) (hsize : source.size = maxWord32 + 1) (metric : Metric N D) :
    ∃ forest index, History source forest ∧ forest.toIndex source = .ok index ∧
      forest.metric = metric ∧ index.metric = metric ∧
      (∀ i < source.size, forest.contains i = true) ∧
      ∃ i < source.size, ∀ {σ : Type} [Collector σ D] (start : σ) (options : SearchOptions D),
        0 ≤ options.slack → options.maxLeaves = none →
        Collector.worst start = (Distance.infinity : D) →
        index.Lost (index.find start (source.coordinates i) options) := by
  have hempty : Forest.empty source.dims ⟨maxWord32, none⟩ metric =
      .ok ⟨source.dims, ⟨maxWord32, none⟩, metric, [], 0, .empty, 0⟩ :=
    empty_eq_ok.mpr ⟨BuildOptions.validate_eq_ok.mpr ⟨by decide, le_rfl⟩, hdims, hfew, rfl⟩
  have hbegun : History source (⟨source.dims, ⟨maxWord32, none⟩, metric, [], 0, .empty, 0⟩ :
    Forest N D) := .empty hempty
  obtain ⟨hmetric, hfilled⟩ := (Filled.empty hempty).insertRange hfinite hdims hfew
    (show 0 + maxWord32 ≤ source.size by omega) (by omega)
  rw [Nat.zero_add] at hfilled
  have hhistory := hbegun.call (.insertRange maxWord32 0)
  rw [perform] at hhistory
  generalize (Forest.insertRange source maxWord32 0 _).1 = forest at hmetric hfilled hhistory
  obtain ⟨tree, hinserted, hinsert, hlast, hparts, hfull⟩ :=
    hfilled.last hfinite hdims hfew (by omega)
  obtain ⟨hin, -⟩ := hfilled.merged (show maxWord32 < source.size by omega)
  have hfinal := hhistory.call (.insert maxWord32)
  rw [perform, hinsert] at hfinal
  have hbuilt := Tree.build_eq_ok hinserted.build
  let grown := forest.settle 32 tree
  obtain ⟨i, hi, hlost⟩ := Index.exists_lost
    ⟨grown.dims, grown.size, source, grown.metric, grown.parts⟩ hparts hlast.serves.dims_eq hbuilt
    (fun i hi => hfinite i (hin i hi)) (fun _ hbox => absurd hbox.symm (Option.some_ne_none _))
    (hbuilt.size_eq.symm.trans hfull)
  exact ⟨grown, _, hfinal, hlast.serves.toIndex_eq, hmetric, hmetric,
    fun i hi => (hlast.contains_iff i).mpr (hsize ▸ hi), i, hin i hi, hlost⟩

omit [LawfulDistance D] [ToString D] in
/-- A collector of neighbors has no limit to begin with. -/
theorem Nearest.worst_ofSize {k : Nat} (hk : 0 < k) :
    Collector.worst (ofSize k : Nearest D) = (Distance.infinity : D) := if_pos hk

/-- There is a forest with all points at zero in which searches around zero fail. -/
theorem exists_lost_zero (metric : Metric UInt8 D) : ∃ forest index,
    Forest.History zeroSource forest ∧ forest.toIndex zeroSource = .ok index ∧
      index.Ready ((List.range zeroSource.size).filter (forest.contains ·)) ∧
      forest.metric = metric ∧ index.metric = metric ∧
      (∀ i < zeroSource.size, forest.contains i = true) ∧
      ∀ {σ : Type} [Collector σ D] (start : σ) (options : SearchOptions D),
        0 ≤ options.slack → options.maxLeaves = none →
        Collector.worst start = (Distance.infinity : D) →
        index.Lost (index.find start [0] options) := by
  obtain ⟨forest, index, hhistory, hindex, hmetric, hmetric', hall, i, -, hlost⟩ :=
    Forest.exists_lost finite_zeroSource Nat.one_ne_zero (by decide) rfl metric
  exact ⟨forest, index, hhistory, hindex, .forest hhistory.kept finite_zeroSource hindex, hmetric,
    hmetric', hall, hlost⟩

/-- Of a forest with all of them, the nearest are asked for in vain. -/
theorem not_answered_full : ∃ (forest : Forest UInt8 Binary64) (index : Index UInt8 Binary64),
    Forest.History zeroSource forest ∧ zeroSource.Finite ∧ forest.metric.Bounds [0] ∧
      (∀ i < zeroSource.size, forest.contains i = true) ∧ forest.toIndex zeroSource = .ok index ∧
      index.nearest [0] 1 ≠
        .ok ((Neighbor.sort (forest.neighbors zeroSource [0])).take 1) := by
  obtain ⟨forest, index, hhistory, hindex, -, hmetric, -, hall, hlost⟩ :=
    exists_lost_zero (.squaredEuclidean : Metric UInt8 Binary64)
  obtain ⟨-, first, hfailed⟩ :=
    hlost _ .standard LawfulDistance.zero_le rfl (Nearest.worst_ofSize Nat.one_pos)
  refine ⟨forest, index, hhistory, finite_zeroSource, hmetric ▸ bounds_squaredEuclidean_byte, hall,
    hindex, ?_⟩
  have hone : Index.requireSome 1 = .ok () := rfl
  rw [Index.nearest, Index.nearestWith, hone, Outcome.ok_bind, hfailed]
  rintro ⟨⟩

/-- Nor does a record of all offers come to an end. -/
theorem not_recorded_full : ∃ (forest : Forest UInt8 Binary64) (index : Index UInt8 Binary64),
    index.Ready ((List.range zeroSource.size).filter (forest.contains ·)) ∧
      index.metric.Bounds [0] ∧ (∀ i < zeroSource.size, forest.contains i = true) ∧
      ∀ final, index.find (Recorder.start Distance.infinity false none : Recorder Binary64) [0]
        .standard ≠ .ok final := by
  obtain ⟨forest, index, -, -, hready, -, hmetric, hall, hlost⟩ :=
    exists_lost_zero (.squaredEuclidean : Metric UInt8 Binary64)
  obtain ⟨-, first, hfailed⟩ := hlost
    (Recorder.start Distance.infinity false none : Recorder Binary64) .standard
    LawfulDistance.zero_le rfl rfl
  refine ⟨forest, index, hready, hmetric ▸ bounds_squaredEuclidean_byte, hall, fun final => ?_⟩
  rw [hfailed]
  rintro ⟨⟩

/-- Nor are the points within an infinite radius listed, in exact arithmetic. -/
theorem not_listed_full : ∃ (forest : Forest UInt8 EReal) (index : Index UInt8 EReal),
    index.Ready ((List.range zeroSource.size).filter (forest.contains ·)) ∧
      index.metric.Bounds [0] ∧ (∀ i < zeroSource.size, forest.contains i = true) ∧
      ∀ list, index.within [0] ⊤ .standard ≠ .ok list := by
  obtain ⟨forest, index, -, -, hready, -, hmetric, hall, hlost⟩ :=
    exists_lost_zero (.manhattan : Metric UInt8 EReal)
  have hradius : index.metric.ofRadius ⊤ = ⊤ := hmetric ▸ rfl
  obtain ⟨-, first, hfailed⟩ :=
    hlost (Within.ofRadius (index.metric.ofRadius ⊤)) .standard LawfulDistance.zero_le rfl hradius
  have hrange : Index.requireRadius (⊤ : EReal) = .ok () := if_pos le_top
  refine ⟨forest, index, hready, hmetric ▸ additive_manhattan_byte.bounds [0], hall, fun list => ?_⟩
  rw [Index.within, hrange, Outcome.ok_bind, hfailed]
  rintro ⟨⟩

/-- Nor are the nearest ones, with a slack of one. -/
theorem not_ranked_full : ∃ (forest : Forest UInt8 EReal) (index : Index UInt8 EReal),
    index.Ready ((List.range zeroSource.size).filter (forest.contains ·)) ∧
      index.metric.Bounds [0] ∧ (∀ i < zeroSource.size, forest.contains i = true) ∧
      ∀ list, index.nearestWith [0] 1 ⟨1, true, none⟩ ≠ .ok list := by
  obtain ⟨forest, index, -, -, hready, -, hmetric, hall, hlost⟩ :=
    exists_lost_zero (.manhattan : Metric UInt8 EReal)
  obtain ⟨-, first, hfailed⟩ :=
    hlost _ ⟨1, true, none⟩ zero_le_one rfl (Nearest.worst_ofSize Nat.one_pos)
  have hone : Index.requireSome 1 = .ok () := rfl
  refine ⟨forest, index, hready, hmetric ▸ additive_manhattan_byte.bounds [0], hall, fun list => ?_⟩
  rw [Index.nearestWith, hone, Outcome.ok_bind, hfailed]
  rintro ⟨⟩

end Proximity
