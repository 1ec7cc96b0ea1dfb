import Mathlib
import Proximity.Proofs.Numeric
import Proximity.Proofs.Tree.Mirrored

/-!
# Searches abreast

An exact search of two trees that mirror each other goes through both in step: at every node what
still counts can be told from the points seen, and these are the same. So both searches pass a node
or both open it, and if the end of a leaf is lost then both are lost there, with one error.

Where all points of a branch coincide, the points seen may differ below it. But all of them are at
one distance then, and no gap to a box around them is larger: once that distance counts it goes on
to count, and as long as it does not, nothing is offered at all.
-/

namespace Proximity

variable {N D σ : Type} [Coordinate N]

namespace Inquiry

variable [Scalar D] [Comparison D] [Collector σ D]

/-- The same inquiry of another tree. -/
def of (inquiry : Inquiry N D) (part : Part N) : Inquiry N D :=
  { inquiry with tree := part.tree, isLive := part.isLive }

variable {inquiry : Inquiry N D} {part : Part N} {track : σ → List Nat → Prop}

/-- Points at one distance leave it to count if it does, and otherwise change nothing. -/
theorem offerPoints_level (h : inquiry.Sound) (hs : Steers inquiry.distance track) {d : D}
    {points : List Nat} (hpoints : ∀ index ∈ points, index ∈ inquiry.tree.order)
    (hd : ∀ index ∈ points, inquiry.distance index = d) {state state' : σ} {more : Bool}
    {seen : List Nat} (hstate : track state seen)
    (hrun : inquiry.offerPoints points state = .ok (state', more)) :
    (d ≤ Collector.worst state → d ≤ Collector.worst state') ∧
      (¬ d ≤ Collector.worst state → state' = state) := by
  induction points generalizing state seen with
  | nil =>
    obtain ⟨rfl, -⟩ := Prod.mk.inj (Except.ok.inj hrun)
    exact ⟨id, fun _ => rfl⟩
  | cons index points ih =>
    obtain ⟨hindex, hrest⟩ := List.forall_mem_cons.mp hpoints
    obtain ⟨rfl, hd⟩ := List.forall_mem_cons.mp hd
    rw [offerPoints_cons h hindex] at hrun
    split at hrun
    · next hoffered =>
      obtain ⟨hmore, htrack⟩ := hs.offer hstate hoffered.2
      rw [if_pos hmore] at hrun
      have hle := hs.le_worst hstate hoffered.2
      exact ⟨fun _ => (ih hrest hd htrack hrun).1 hle, fun hfar => absurd hoffered.2 hfar⟩
    · exact ih hrest hd hstate hrun

/-- Whether two states let the same count up to some distance: both let it count itself, or the
same. -/
def Level (d : D) (state state' : σ) : Prop :=
  Collector.worst state = Collector.worst state' ∨
    d ≤ Collector.worst state ∧ d ≤ Collector.worst state'

omit [Coordinate N] in
/-- Of states that let the same count up to a distance, both pass a bound of it or none, and both
reach it or none. -/
theorem Level.decide_eq {d nearest : D} {state state' : σ} (h : Level d state state')
    (hexact : inquiry.slack ≤ 0) (hle : nearest ≤ d) :
    inquiry.passes nearest state' = inquiry.passes nearest state ∧
      inquiry.reaches nearest state' = inquiry.reaches nearest state := by
  have hstretch : inquiry.stretch nearest = nearest := if_pos hexact
  rw [passes, passes, reaches, reaches, hstretch]
  rcases h with heq | ⟨hcounts, hcounts'⟩
  · rw [heq]
    exact ⟨rfl, rfl⟩
  · have hle' := Comparison.trans hle hcounts
    have hle'' := Comparison.trans hle hcounts'
    exact ⟨(decide_eq_false (Comparison.not_lt hle'')).trans
        (decide_eq_false (Comparison.not_lt hle')).symm,
      (decide_eq_true hle'').trans (decide_eq_true hle').symm⟩

omit [Comparison D] in
/-- States are still level when one distance only was offered to both. -/
theorem Level.step {d : D} {state state' next next' : σ} (h : Level d state state')
    (hnext : (d ≤ Collector.worst state → d ≤ Collector.worst next) ∧
      (¬ d ≤ Collector.worst state → next = state))
    (hnext' : (d ≤ Collector.worst state' → d ≤ Collector.worst next') ∧
      (¬ d ≤ Collector.worst state' → next' = state')) : Level d next next' := by
  rcases h with heq | ⟨hle, hle'⟩
  · by_cases hle : d ≤ Collector.worst state
    · exact .inr ⟨hnext.1 hle, hnext'.1 (heq ▸ hle)⟩
    · rw [hnext.2 hle, hnext'.2 (heq ▸ hle)]
      exact .inl heq
  · exact .inr ⟨hnext.1 hle, hnext'.1 hle'⟩

/-- Whether an exact inquiry is made of two trees that mirror each other, with the same points alive
in both, under a metric that makes the same of values numerically equal. -/
structure Mirrors (inquiry : Inquiry N D) (part : Part N) : Prop where
  sound : inquiry.Sound
  sound' : (inquiry.of part).Sound
  tree : inquiry.tree.Mirrors inquiry.source part.tree
  live : ∀ index ∈ inquiry.tree.order, part.isLive index = inquiry.isLive index
  exact : inquiry.slack ≤ 0
  numeric : inquiry.metric.Numeric inquiry.query

omit [Coordinate N] in
/-- Searches that have both come to their end, in states that are related. -/
inductive Abreast (P : σ → σ → Prop) : Progress σ → Progress σ → Prop
  | intro {state state' : σ} : P state state' → Abreast P ⟨state, none, true⟩ ⟨state', none, true⟩

omit [Comparison D] in
/-- Whether searches of a node in either tree, from the gaps to a box, end in states that are
related, or fail alike. -/
def InStep (inquiry : Inquiry N D) (part : Part N) (P : σ → σ → Prop) (cell : Box N)
    (node node' : Node N) (state state' : σ) : Prop :=
  Outcome.Both (Abreast P)
    (inquiry.stored.visit node.stored (inquiry.metric.gaps inquiry.query cell)
      (Scalar.total (inquiry.metric.gaps inquiry.query cell)) ⟨state, none, true⟩)
    ((inquiry.of part).stored.visit node'.stored (inquiry.metric.gaps inquiry.query cell)
      (Scalar.total (inquiry.metric.gaps inquiry.query cell)) ⟨state', none, true⟩)

namespace Mirrors

omit [Comparison D] in
/-- Ranges of both trees are found as they are meant, or lost in both. -/
theorem points_both (h : inquiry.Mirrors part) {first last : Nat} (hrange : first ≤ last)
    (hlast : last ≤ inquiry.tree.order.size) (hnarrow : last - first ≤ maxWord32) :
    Outcome.Both
      (fun points points' => points = (inquiry.tree.order.extract first last).toList ∧
        points' = (part.tree.order.extract first last).toList)
      (inquiry.tree.points (toWord32 first) (toWord32 last))
      (part.tree.points (toWord32 first) (toWord32 last)) := by
  have hsize : part.tree.order.size = inquiry.tree.order.size := h.tree.perm.length_eq.symm
  have hkept := inquiry.tree.points_toWord32 hrange hlast h.tree.meant.size_le hnarrow
  have hkept' := part.tree.points_toWord32 hrange (hlast.trans hsize.ge) h.tree.meant'.size_le
    hnarrow
  have hmeant : inquiry.tree.points first last =
      .ok (inquiry.tree.order.extract first last).toList := if_pos ⟨hrange, hlast⟩
  have hmeant' : part.tree.points first last =
      .ok (part.tree.order.extract first last).toList := if_pos ⟨hrange, hlast.trans hsize.ge⟩
  by_cases hin : toWord32 first ≤ toWord32 last ∧ toWord32 last ≤ inquiry.tree.order.size
  · rw [Tree.points, if_pos hin] at hkept ⊢
    rw [Tree.points, hsize, if_pos hin] at hkept' ⊢
    exact .ok ⟨Except.ok.inj (hkept.of_ok.symm.trans hmeant),
      Except.ok.inj (hkept'.of_ok.symm.trans hmeant')⟩
  · rw [Tree.points, Tree.points, hsize, if_neg hin, if_neg hin]
    exact .error _

omit [Comparison D] in
/-- An exact search leaves out what is itself beyond reach. -/
theorem tracks (h : inquiry.Mirrors part) (hs : Steers inquiry.distance track) :
    Tracks inquiry.distance inquiry.reach track := by
  have hreach : inquiry.reach = inquiry.distance := funext fun _ => if_pos h.exact
  exact hreach.symm ▸ hs.toTracks

/-- Searches of leaves are in step if they pass both or neither, and are related when each was
offered its points. -/
theorem visit_leaf (h : inquiry.Mirrors part) (hs : Steers inquiry.distance track)
    {first last : Nat} (htidy : (Node.leaf first last).Tidy inquiry.source inquiry.tree.order)
    {P : σ → σ → Prop} {cell : Box N} {state state' : σ} {seen seen' : List Nat}
    (hstate : track state seen) (hstate' : track state' seen') (hstart : P state state')
    (hpass : inquiry.passes (Scalar.total (inquiry.metric.gaps inquiry.query cell)) state' =
      inquiry.passes (Scalar.total (inquiry.metric.gaps inquiry.query cell)) state)
    (hoffers : ∀ next next' : σ,
      inquiry.offerPoints (inquiry.tree.order.extract first last).toList state =
        .ok (next, true) →
      (inquiry.of part).offerPoints (part.tree.order.extract first last).toList state' =
        .ok (next', true) →
      track next (inquiry.live (inquiry.tree.order.extract first last).toList ++ seen) →
      track next' ((inquiry.of part).live (part.tree.order.extract first last).toList ++ seen') →
      P next next') :
    inquiry.InStep part P cell (.leaf first last) (.leaf first last) state state' := by
  have hpass' : (inquiry.of part).passes
      (Scalar.total (inquiry.metric.gaps inquiry.query cell)) state' = _ := hpass
  have hpoints (index) (hindex : index ∈ (inquiry.tree.order.extract first last).toList) :
      index ∈ inquiry.tree.order := mem_of_mem_extract hindex
  have hpoints' (index) (hindex : index ∈ (part.tree.order.extract first last).toList) :
      index ∈ part.tree.order := mem_of_mem_extract hindex
  obtain ⟨next, hrun, htrack⟩ := offerPoints_sees h.sound (h.tracks hs) hpoints hstate
  obtain ⟨next', hrun', htrack'⟩ := offerPoints_sees h.sound' (h.tracks hs) hpoints' hstate'
  rw [InStep, Node.stored, visit, visit, passes_stored, passes_stored, hpass']
  split
  · exact .ok (.intro hstart)
  · simp only [openLeaf, reduceCtorEq, ite_false]
    refine (h.points_both htidy.inRange.1 htidy.inRange.2 htidy.narrow).bind ?_
    rintro _ _ - - ⟨rfl, rfl⟩
    rw [offerPoints_stored, offerPoints_stored, hrun, hrun']
    exact .ok (.intro (hoffers next next' hrun hrun' htrack htrack'))

/-- Whether searches of both trees are in step in the near children and then in the far ones, which
lie beyond a split, and go to both of these or to neither. -/
structure Descends (inquiry : Inquiry N D) (part : Part N) (P : σ → σ → Prop) (cell beyond : Box N)
    (near near' far far' : Node N) (state state' : σ) : Prop where
  reaches : inquiry.reaches (Scalar.total (inquiry.metric.gaps inquiry.query beyond)) state' =
    inquiry.reaches (Scalar.total (inquiry.metric.gaps inquiry.query beyond)) state
  near : inquiry.InStep part P cell near near' state state'
  far : ∀ next next', P next next' → inquiry.InStep part P beyond far far' next next'

omit [Comparison D] in
/-- Searches that descend abreast end abreast. -/
theorem Descends.both {P : σ → σ → Prop} {cell beyond : Box N} {near near' far far' : Node N}
    {state state' : σ} (h : Descends inquiry part P cell beyond near near' far far' state state') :
    Outcome.Both (Abreast P)
      (inquiry.stored.visit near.stored (inquiry.metric.gaps inquiry.query cell)
          (Scalar.total (inquiry.metric.gaps inquiry.query cell)) ⟨state, none, true⟩ >>=
        fun progress =>
          if inquiry.reaches (Scalar.total (inquiry.metric.gaps inquiry.query beyond)) state then
            inquiry.stored.visit far.stored (inquiry.metric.gaps inquiry.query beyond)
              (Scalar.total (inquiry.metric.gaps inquiry.query beyond)) progress
          else .ok progress)
      ((inquiry.of part).stored.visit near'.stored (inquiry.metric.gaps inquiry.query cell)
          (Scalar.total (inquiry.metric.gaps inquiry.query cell)) ⟨state', none, true⟩ >>=
        fun progress =>
          if inquiry.reaches (Scalar.total (inquiry.metric.gaps inquiry.query beyond)) state' then
            (inquiry.of part).stored.visit far'.stored (inquiry.metric.gaps inquiry.query beyond)
              (Scalar.total (inquiry.metric.gaps inquiry.query beyond)) progress
          else .ok progress) := by
  rw [h.reaches]
  refine Outcome.Both.bind h.near ?_
  rintro _ _ - - ⟨hnext⟩
  split
  · exact h.far _ _ hnext
  · exact .ok (.intro hnext)

variable [LawfulCoordinate N]

omit [Comparison D] in
/-- Searches of branches are in step if they pass both or neither, and descend so on either side. -/
theorem visit_branch (h : inquiry.Mirrors part) {axis : Nat} (haxis : axis < inquiry.source.dims)
    {split split' : N} (hle : split ≤ split') (hle' : split' ≤ split)
    {left left' right right' : Node N} {P : σ → σ → Prop} {cell : Box N}
    (hcell : cell.dims = inquiry.source.dims) {state state' : σ} (hstart : P state state')
    (hpass : inquiry.passes (Scalar.total (inquiry.metric.gaps inquiry.query cell)) state' =
      inquiry.passes (Scalar.total (inquiry.metric.gaps inquiry.query cell)) state)
    (hsides : ∀ side, inquiry.tree.box.sides[axis]? = some side →
      Descends inquiry part P cell ⟨cell.sides.set axis ⟨split, side.high⟩⟩ left left' right right'
        state state' ∧
      Descends inquiry part P cell ⟨cell.sides.set axis ⟨side.low, split⟩⟩ right right' left left'
        state state') :
    inquiry.InStep part P cell (.branch axis split left right) (.branch axis split' left' right')
      state state' := by
  obtain ⟨v, side, hv, hside⟩ := inquiry.exists_axis (h.sound.length_eq.symm ▸ haxis)
    (h.sound.searchable.box_dims.symm ▸ haxis)
  obtain ⟨hlt, rfl⟩ := List.getElem?_eq_some_iff.mp hside
  have hlt' := h.tree.box.length_eq ▸ hlt
  have halike : (inquiry.tree.box.sides[axis]).Alike part.tree.box.sides[axis] :=
    h.tree.box.get hlt hlt'
  obtain ⟨hlow, hhigh⟩ := hsides _ hside
  have hlength : axis < cell.sides.length := haxis.trans_eq hcell.symm
  have hpass' : (inquiry.of part).passes
      (Scalar.total (inquiry.metric.gaps inquiry.query cell)) state' = _ := hpass
  have hquery : inquiry.stored.query[axis]? = some v := hv
  have hquery' : (inquiry.of part).stored.query[axis]? = some v := hv
  have hkept : inquiry.stored.tree.box.sides[axis]? = some inquiry.tree.box.sides[axis] := hside
  have hkept' : (inquiry.of part).stored.tree.box.sides[axis]? = some part.tree.box.sides[axis] :=
    List.getElem?_eq_getElem hlt'
  rw [InStep, Node.stored, Node.stored, visit, visit, passes_stored, passes_stored, hpass', hquery,
    hquery', hkept, hkept']
  split
  · exact .ok (.intro hstart)
  dsimp only
  by_cases hnear : v < split
  · rw [if_pos hnear, if_pos (Comparison.lt_of_lt_of_le hnear hle)]
    have hgap : inquiry.metric.gap axis v ⟨split', part.tree.box.sides[axis].high⟩ =
        inquiry.metric.gap axis v ⟨split, inquiry.tree.box.sides[axis].high⟩ :=
      h.numeric.gap_eq hv ⟨hle', hle, halike.le_high, halike.high_le⟩
    have hboth := hlow.both
    rw [Metric.gaps_set inquiry.metric hv hlength, ← hgap] at hboth
    exact hgap ▸ hboth
  · rw [if_neg hnear, if_neg fun hnear' => hnear (Comparison.lt_of_lt_of_le hnear' hle')]
    have hgap : inquiry.metric.gap axis v ⟨part.tree.box.sides[axis].low, split'⟩ =
        inquiry.metric.gap axis v ⟨inquiry.tree.box.sides[axis].low, split⟩ :=
      h.numeric.gap_eq hv ⟨halike.le_low, halike.low_le, hle', hle⟩
    have hboth := hhigh.both
    rw [Metric.gaps_set inquiry.metric hv hlength, ← hgap] at hboth
    exact hgap ▸ hboth

/-- Where all points coincide, searches of both trees open the same leaves. -/
theorem visit_coincident (h : inquiry.Mirrors part) (hs : Steers inquiry.distance track)
    {node node' : Node N} (hnode : node.Mirrors node')
    (htidy : node.Tidy inquiry.source inquiry.tree.order) {points : List Nat}
    (hcoincide : inquiry.source.Coincide points)
    (hpoints : ∀ index ∈ points, index ∈ inquiry.tree.order)
    (hbelow : ∀ index ∈ node.points inquiry.tree.order, index ∈ points)
    (hbelow' : ∀ index ∈ node'.points part.tree.order, index ∈ points) {index : Nat}
    (hindex : index ∈ points) {cell : Box N} (hcell : cell.dims = inquiry.source.dims)
    (hin : cell.contains (inquiry.source.coordinates index) = true) {state state' : σ}
    {seen seen' : List Nat} (hstate : track state seen) (hstate' : track state' seen')
    (hlevel : Level (inquiry.distance index) state state') :
    inquiry.InStep part
      (fun next next' => ((∃ seen, track next seen) ∧ ∃ seen, track next' seen) ∧
        Level (inquiry.distance index) next next')
      cell node node' state state' := by
  have hfinite (i) (hi : i ∈ points) : inquiry.source.FiniteAt i :=
    h.sound.searchable.finite i (hpoints i hi)
  have hdistance (i) (hi : i ∈ points) : inquiry.distance i = inquiry.distance index :=
    h.numeric.distance_eq (hcoincide.coordinates hfinite hi hindex)
  have hmem : ∀ i ∈ [index], i ∈ inquiry.tree.order := by simpa using hpoints index hindex
  have hbound {cell : Box N} (hcell : cell.dims = inquiry.source.dims)
      (hin : cell.contains (inquiry.source.coordinates index) = true) :
      Scalar.total (inquiry.metric.gaps inquiry.query cell) ≤ inquiry.distance index :=
    bound_of_cell h.sound hcell hmem (by simpa using hin) index (List.mem_singleton_self _)
  induction hnode generalizing cell state state' seen seen' with
  | leaf first last =>
    refine h.visit_leaf hs htidy hstate hstate' ⟨⟨⟨_, hstate⟩, _, hstate'⟩, hlevel⟩
      (hlevel.decide_eq h.exact (hbound hcell hin)).1 fun next next' hrun hrun' htrack htrack' => ?_
    refine ⟨⟨⟨_, htrack⟩, _, htrack'⟩, hlevel.step ?_ ?_⟩
    · exact offerPoints_level h.sound hs (fun i => mem_of_mem_extract)
        (fun i hi => hdistance i (hbelow i hi)) hstate hrun
    · exact offerPoints_level h.sound' hs (fun i => mem_of_mem_extract)
        (fun i hi => hdistance i (hbelow' i hi)) hstate' hrun'
  | @branch axis split split' left left' right right' hle hle' _ _ ihl ihr =>
    have haxis := htidy.ordered.1
    obtain ⟨hleft, hright⟩ := htidy.children
    obtain ⟨w, hw, -⟩ := hfinite index hindex axis haxis
    obtain ⟨hwle, hlew⟩ := htidy.on_split hcoincide hbelow hindex hw
    obtain ⟨hbelowLeft, hbelowRight⟩ := List.forall_mem_append.mp hbelow
    obtain ⟨hbelowLeft', hbelowRight'⟩ := List.forall_mem_append.mp hbelow'
    obtain ⟨hpass, -⟩ := hlevel.decide_eq h.exact (hbound hcell hin)
    -- The points lie on the split, so they lie in the boxes on both sides of it.
    have hbeyond (side : Side N) (hholds : side.Holds w) :
        (Box.mk (cell.sides.set axis side)).contains (inquiry.source.coordinates index) = true := by
      refine contains_set h.sound hmem (by simpa using hin) haxis ?_ index
        (List.mem_singleton_self _)
      simp only [List.forall_mem_singleton, hw]
      exact fun v hv => Option.some.inj hv ▸ hholds
    have hdims {side : Side N} : (Box.mk (cell.sides.set axis side)).dims = inquiry.source.dims :=
      List.length_set.trans hcell
    refine h.visit_branch haxis hle hle' hcell ⟨⟨⟨_, hstate⟩, _, hstate'⟩, hlevel⟩ hpass
      fun side hside => ?_
    have hroot := root_holds h.sound haxis hside (hpoints index hindex) hw
    have hup := hbeyond ⟨split, side.high⟩ ⟨hlew, hroot.2⟩
    have hdown := hbeyond ⟨side.low, split⟩ ⟨hroot.1, hwle⟩
    constructor
    · refine ⟨(hlevel.decide_eq h.exact (hbound hdims hup)).2,
        ihl hleft hbelowLeft hbelowLeft' hcell hin hstate hstate' hlevel, ?_⟩
      rintro next next' ⟨⟨⟨seen, htrack⟩, seen', htrack'⟩, hlevel⟩
      exact ihr hright hbelowRight hbelowRight' hdims hup htrack htrack' hlevel
    · refine ⟨(hlevel.decide_eq h.exact (hbound hdims hdown)).2,
        ihr hright hbelowRight hbelowRight' hcell hin hstate hstate' hlevel, ?_⟩
      rintro next next' ⟨⟨⟨seen, htrack⟩, seen', htrack'⟩, hlevel⟩
      exact ihl hleft hbelowLeft hbelowLeft' hdims hdown htrack htrack' hlevel

omit [LawfulCoordinate N] [Comparison D] in
/-- Trees over the same points have the same points alive. -/
theorem live_perm (h : inquiry.Mirrors part) {node : Node N} {points : List Nat}
    (hperm : (node.points inquiry.tree.order).Perm points) :
    (inquiry.live (node.points inquiry.tree.order)).Perm ((inquiry.of part).live points) := by
  have hlive : inquiry.live (node.points inquiry.tree.order) =
      (inquiry.of part).live (node.points inquiry.tree.order) :=
    List.filter_congr fun index hindex => (h.live index (Node.mem_of_mem_points hindex)).symm
  exact hlive ▸ hperm.filter _

omit [LawfulCoordinate N] in
/-- A search that comes to its end has seen all points of its node that are alive. -/
theorem visit_stored_sees (hsound : inquiry.Sound) (hmeant : inquiry.tree.Meant inquiry.source)
    (ht : Tracks inquiry.distance inquiry.reach track) {node : Node N}
    (htidy : node.Tidy inquiry.source inquiry.tree.order) {cell : Box N}
    (hcell : cell.dims = inquiry.source.dims)
    (hin : ∀ index ∈ node.points inquiry.tree.order,
      cell.contains (inquiry.source.coordinates index) = true) {state next : σ} {seen : List Nat}
    (hstate : track state seen)
    (hrun : inquiry.stored.visit node.stored (inquiry.metric.gaps inquiry.query cell)
      (Scalar.total (inquiry.metric.gaps inquiry.query cell)) ⟨state, none, true⟩ =
        .ok ⟨next, none, true⟩) :
    track next (inquiry.live (node.points inquiry.tree.order) ++ seen) := by
  have hstored := inquiry.visit_stored hmeant.size_le node htidy.inRange htidy.narrow
    (inquiry.metric.gaps inquiry.query cell)
    (Scalar.total (inquiry.metric.gaps inquiry.query cell)) ⟨state, none, true⟩
  rw [hrun] at hstored
  obtain ⟨final, hmeantRun, htrack⟩ :=
    visit_sees hsound ht node htidy.inRange htidy.ordered (fun _ => Node.mem_of_mem_points) hcell
      hin state seen hstate
  obtain rfl : final = next :=
    congrArg Progress.state (Except.ok.inj (hmeantRun.symm.trans hstored.of_ok))
  exact htrack

/-- Searches of both trees are in step, and have seen the same points at the end. -/
theorem visit_abreast (h : inquiry.Mirrors part) (hs : Steers inquiry.distance track)
    {node node' : Node N} (hnode : node.Mirrors node')
    (htidy : node.Tidy inquiry.source inquiry.tree.order)
    (htidy' : node'.Tidy inquiry.source part.tree.order)
    (hperm : (node.points inquiry.tree.order).Perm (node'.points part.tree.order)) {cell : Box N}
    (hcell : cell.dims = inquiry.source.dims)
    (hin : ∀ index ∈ node.points inquiry.tree.order,
      cell.contains (inquiry.source.coordinates index) = true) {state state' : σ} {seen : List Nat}
    (hstate : track state seen) (hstate' : track state' seen) :
    inquiry.InStep part (fun next next' => ∃ seen, track next seen ∧ track next' seen) cell
      node node' state state' := by
  have ht := h.tracks hs
  have hsame {state state' : σ} {seen : List Nat} (hstate : track state seen)
      (hstate' : track state' seen) (nearest : D) :
      inquiry.passes nearest state' = inquiry.passes nearest state ∧
        inquiry.reaches nearest state' = inquiry.reaches nearest state := by
    rw [passes, passes, reaches, reaches, hs.worst_eq hstate hstate']
    exact ⟨rfl, rfl⟩
  induction hnode generalizing cell state state' seen with
  | leaf first last =>
    refine h.visit_leaf hs htidy hstate hstate' ⟨seen, hstate, hstate'⟩
      (hsame hstate hstate' _).1 ?_
    rintro next next' - - htrack htrack'
    exact ⟨_, htrack, ht.perm ((h.live_perm hperm).symm.append_right seen) htrack'⟩
  | @branch axis split split' left left' right right' hle hle' hleftM hrightM ihl ihr =>
    obtain ⟨hleft, hright⟩ := htidy.children
    obtain ⟨hleft', hright'⟩ := htidy'.children
    obtain ⟨haxis, hbelow, habove, -, -⟩ := htidy.ordered
    have hpoints {node : Node N} (index) (h : index ∈ node.points inquiry.tree.order) :
        index ∈ inquiry.tree.order := Node.mem_of_mem_points h
    obtain ⟨hinLeft, hinRight⟩ := List.forall_mem_append.mp hin
    have hlevel := hsame hstate hstate'
    -- Either each child has the same points in both trees, or it does not matter which it has.
    rcases htidy.parts_perm htidy' hle hle' hperm with ⟨hpermLeft, hpermRight⟩ | hcoincide
    · have hdims {side : Side N} : (Box.mk (cell.sides.set axis side)).dims =
          inquiry.source.dims := List.length_set.trans hcell
      refine h.visit_branch haxis hle hle' hcell ⟨seen, hstate, hstate'⟩ (hlevel _).1
        fun side hside => ⟨⟨(hlevel _).2, ?_, ?_⟩, ⟨(hlevel _).2, ?_, ?_⟩⟩
      · exact ihl hleft hleft' hpermLeft hcell hinLeft hstate hstate'
      · rintro next next' ⟨seen, hnext, hnext'⟩
        refine ihr hright hright' hpermRight hdims ?_ hnext hnext'
        refine contains_set h.sound hpoints hinRight haxis fun index hindex w hw => ?_
        obtain ⟨u, hu, hge⟩ := habove index hindex
        obtain rfl := Option.some.inj (hu.symm.trans hw)
        exact ⟨hge, (root_holds h.sound haxis hside (hpoints index hindex) hw).2⟩
      · exact ihr hright hright' hpermRight hcell hinRight hstate hstate'
      · rintro next next' ⟨seen, hnext, hnext'⟩
        refine ihl hleft hleft' hpermLeft hdims ?_ hnext hnext'
        refine contains_set h.sound hpoints hinLeft haxis fun index hindex w hw => ?_
        obtain ⟨u, hu, hle⟩ := hbelow index hindex
        obtain rfl := Option.some.inj (hu.symm.trans hw)
        exact ⟨(root_holds h.sound haxis hside (hpoints index hindex) hw).1, hle⟩
    · obtain ⟨index, hindex⟩ := htidy.stocked.exists_point
      have hboth := h.visit_coincident hs (.branch hle hle' hleftM hrightM) htidy hcoincide hpoints
        (fun _ hmem => hmem) (fun _ hmem => hperm.mem_iff.mpr hmem) hindex hcell
        (hin index hindex) hstate hstate' (.inl (hs.worst_eq hstate hstate'))
      refine Outcome.Both.imp hboth ?_
      rintro _ _ hrun hrun' ⟨-⟩
      have htrack := visit_stored_sees h.sound h.tree.meant ht htidy hcell hin hstate hrun
      have htrack' := visit_stored_sees h.sound' h.tree.meant' ht htidy' hcell
        (fun i hi => hin i (hperm.mem_iff.mpr hi)) hstate' hrun'
      exact .intro ⟨_, htrack, ht.perm ((h.live_perm hperm).symm.append_right seen) htrack'⟩

/-- Searches of both trees, as they are kept, end abreast or are lost both. -/
theorem run_abreast (h : inquiry.Mirrors part) (hs : Steers inquiry.distance track)
    {state state' : σ} {seen : List Nat} (hstate : track state seen)
    (hstate' : track state' seen) :
    Outcome.Both (Abreast fun next next' => ∃ seen, track next seen ∧ track next' seen)
      (inquiry.stored.run ⟨state, none, true⟩)
      ((inquiry.of part).stored.run ⟨state', none, true⟩) := by
  have hgaps : (inquiry.of part).stored.gaps =
      inquiry.metric.gaps inquiry.query inquiry.tree.box :=
    (h.numeric.gaps_eq h.tree.box).symm
  have hpoints := h.tree.meant.searchable.points_eq
  have hpoints' := h.tree.meant'.searchable.points_eq
  rw [run, run, hgaps]
  exact h.visit_abreast hs h.tree.root h.tree.tidy h.tree.tidy'
    (by rw [hpoints, hpoints']; exact h.tree.perm) h.tree.meant.searchable.box_dims
    (fun index hindex => h.tree.meant.searchable.covered index (Node.mem_of_mem_points hindex))
    hstate hstate'

end Mirrors

end Inquiry

end Proximity
