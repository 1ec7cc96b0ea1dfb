import Mathlib
import Proximity.Proofs.Metric
import Proximity.Proofs.Tree.Accepting
import Proximity.Walk

/-!
# A search keeps to what is there

Over a tree whose numbers fit, a search finds everything it reaches for, whatever its bounds, its
collector and its splits are. With a stack of its own it does what the recursion does: a part of
the tree takes as many steps as places are taken from the stack for it, and these are different
places of the table.
-/

namespace Proximity

variable {N D σ : Type}

namespace Tree

/-- The nodes of a tree are found in its table at as many different places as there are nodes. -/
theorem occupies_table {tree : Tree N} {chunkLength : Nat} {cap : Option Nat}
    {table : Table (Cell N)} (hpos : 0 < chunkLength)
    (h : tree.table chunkLength cap = .ok table) :
    table.size = tree.nodes ∧ ∃ places, tree.root.Occupies table 0 places ∧
      places.Perm (List.range tree.nodes) := by
  obtain ⟨start, hstart, hlaid⟩ := Outcome.bind_eq_ok.mp h
  have hsize : start.size = 1 := (Table.size_push hstart).1
  have hsound := (Table.sound_empty hpos cap).push hstart
  have hcount := (Node.size_layOut hlaid).1
  have hnodes : table.size = tree.nodes := by
    rw [nodes]
    omega
  obtain ⟨places, hat, hperm⟩ :=
    Node.occupies_of_layOut hlaid hsound (by omega) fun _ _ _ => rfl
  refine ⟨hnodes, places, hat, hperm.trans ?_⟩
  have hpositive : 0 < tree.nodes := tree.root.count_pos
  obtain ⟨count, hpred⟩ : ∃ count, tree.nodes = count + 1 := ⟨tree.nodes - 1, by omega⟩
  rw [hnodes, hsize, hpred, Nat.add_sub_cancel, List.range_eq_range', List.range'_succ]

/-- The points of a range are points of the tree. -/
theorem mem_order_of_points {tree : Tree N} {first last index : Nat} {listed : List Nat}
    (h : tree.points first last = .ok listed) (hindex : index ∈ listed) : index ∈ tree.order := by
  unfold points at h
  split at h
  · cases h
    exact mem_of_mem_extract hindex
  · nomatch h

end Tree

/-- Whether a search has come to its end, and took only places of the table from its stack, none of
them twice. -/
structure Walk.Ended (walk : Walk σ D) (table : Table (Cell N)) : Prop where
  frames : walk.frames = []
  nodup : walk.popped.Nodup
  inside : ∀ place ∈ walk.popped, place < table.size

namespace Inquiry

/-- Whether everything that a search reaches for is there. -/
structure Safe (inquiry : Inquiry N D) : Prop where
  length_eq : inquiry.query.length = inquiry.tree.dims
  box_dims : inquiry.tree.box.dims = inquiry.tree.dims
  root : inquiry.tree.root.Fits inquiry.tree.dims inquiry.tree.size
  found (index : Nat) (worst : D) : index ∈ inquiry.tree.order →
    ∃ d, inquiry.metric.distanceTo inquiry.query (inquiry.source.read index) worst = .ok d

variable {inquiry : Inquiry N D} {table : Table (Cell N)}

/-- An axis of the tree is one of the query and of its box. -/
theorem Safe.axis_ok (h : inquiry.Safe) {axis : Nat} (haxis : axis < inquiry.tree.dims) :
    ∃ v side, inquiry.query[axis]? = some v ∧ inquiry.tree.box.sides[axis]? = some side ∧
      inquiry.axis axis = .ok (v, side) := by
  have hquery : axis < inquiry.query.length := h.length_eq ▸ haxis
  have hbox : axis < inquiry.tree.box.sides.length := haxis.trans_eq h.box_dims.symm
  refine ⟨_, _, List.getElem?_eq_getElem hquery, List.getElem?_eq_getElem hbox, ?_⟩
  simp only [Inquiry.axis, List.getElem?_eq_getElem hquery, List.getElem?_eq_getElem hbox]

/-- The gaps found axis by axis are all gaps. -/
theorem Safe.measureGaps_ok (h : inquiry.Safe) :
    inquiry.measureGaps = .ok inquiry.gaps ∧ inquiry.gaps.length = inquiry.tree.dims := by
  have hlength : inquiry.gaps.length = inquiry.tree.dims := by
    have hbox : inquiry.tree.box.sides.length = inquiry.tree.dims := h.box_dims
    simp only [gaps, List.length_map, List.length_zipIdx, List.length_zip, h.length_eq, hbox,
      Nat.min_self]
  refine ⟨Outcome.mapM_eq_ok.mpr (List.forall₂_iff_get.mpr ⟨?_, ?_⟩), hlength⟩
  · rw [List.length_range, hlength]
  · intro axis hrange hgaps
    obtain ⟨v, side, hv, hside, haxis⟩ := h.axis_ok (hlength ▸ hgaps)
    rw [List.get_eq_getElem, List.getElem_range, haxis]
    have hgap : inquiry.gaps[axis]? = some (inquiry.metric.gap axis v side) := by
      rw [gaps, List.getElem?_map, List.getElem?_zipIdx, List.zip, List.getElem?_zipWith, hv,
        hside, Nat.zero_add]
      rfl
    rw [List.getElem?_eq_getElem hgaps, Option.some_inj] at hgap
    exact congrArg Except.ok hgap.symm

variable [Scalar D] [Collector σ D]

/-- Points whose distances are found are offered without failing. -/
theorem offerPoints_ok {points : List Nat} (hfound : ∀ index ∈ points, ∀ worst,
      ∃ d, inquiry.metric.distanceTo inquiry.query (inquiry.source.read index) worst = .ok d)
    (state : σ) : ∃ result, inquiry.offerPoints points state = .ok result := by
  induction points generalizing state with
  | nil => exact ⟨_, rfl⟩
  | cons index points ih =>
    have hrest := ih fun other hother => hfound other (List.mem_cons_of_mem _ hother)
    obtain ⟨d, hd⟩ := hfound index List.mem_cons_self (Collector.worst state)
    rw [offerPoints]
    split
    · simp only [hd, Outcome.ok_bind]
      split
      · split
        · exact hrest _
        · exact ⟨_, rfl⟩
      · exact hrest state
    · exact hrest state

/-- A leaf with a range of the points is opened. -/
theorem Safe.openLeaf_ok (h : inquiry.Safe) {first last : Nat}
    (hrange : first ≤ last ∧ last ≤ inquiry.tree.size) (progress : Progress σ) :
    ∃ final, inquiry.openLeaf first last progress = .ok final := by
  have hread : inquiry.tree.points first last =
      .ok (inquiry.tree.order.extract first last).toList := if_pos hrange
  obtain ⟨result, hresult⟩ : ∃ result, inquiry.offerPoints
      (inquiry.tree.order.extract first last).toList progress.state = .ok result := by
    exact offerPoints_ok
      (fun index hindex worst => h.found index worst (mem_of_mem_extract hindex)) _
  rw [openLeaf]
  split
  · exact ⟨_, rfl⟩
  · simp only [hread, Outcome.ok_bind, hresult]
    exact ⟨_, rfl⟩

variable [LT N] [DecidableLT N]

/-- Whether a part of the search ends well, and so do the steps that take a frame from the stack
and go on until nothing is left above what was below it, or nothing at all if no more is wanted. -/
def Walks (inquiry : Inquiry N D) (table : Table (Cell N)) (frame : Frame D)
    (search : Progress σ → Except Error (Progress σ)) (places : List Nat) : Prop :=
  ∀ progress, progress.going = true → ∃ final popped, search progress = .ok final ∧
    popped.Subperm places ∧ ∀ frames seen,
      steps (inquiry.walkStep table) popped.length ⟨frame :: frames, seen, progress⟩ =
        .ok ⟨if final.going then frames else [], popped ++ seen, final⟩

/-- What is left out is taken from the stack and nothing more is done. -/
private theorem walkStep_passes {place : Nat} {gaps : List D} {nearest : D}
    {frames : List (Frame D)} {seen : List Nat} {progress : Progress σ}
    (h : inquiry.passes nearest progress.state = true) :
    inquiry.walkStep table ⟨⟨place, gaps, nearest⟩ :: frames, seen, progress⟩ =
      .ok ⟨frames, place :: seen, progress⟩ := if_pos h

/-- A branch is taken from the stack, then its near part and everything from it, and then its far
part, if that was within reach before and more is wanted still. -/
private theorem walks_branch {near far : Progress σ → Except Error (Progress σ)}
    {frame nearFrame farFrame : Frame D} {place : Nat} {nearPlaces farPlaces : List Nat}
    (hnear : inquiry.Walks table nearFrame near nearPlaces)
    (hfar : inquiry.Walks table farFrame far farPlaces)
    (hdone : ∀ progress, progress.going = false → far progress = .ok progress)
    {reach : Bool} {progress : Progress σ} (hgoing : progress.going = true)
    (hstep : ∀ frames seen, inquiry.walkStep table ⟨frame :: frames, seen, progress⟩ =
      .ok ⟨nearFrame :: if reach then farFrame :: frames else frames, place :: seen, progress⟩) :
    ∃ final popped, (near progress >>= fun progress =>
        if reach then far progress else .ok progress) = .ok final ∧
      popped.Subperm (place :: (nearPlaces ++ farPlaces)) ∧ ∀ frames seen,
        steps (inquiry.walkStep table) popped.length ⟨frame :: frames, seen, progress⟩ =
          .ok ⟨if final.going then frames else [], popped ++ seen, final⟩ := by
  obtain ⟨middle, popped, hmiddle, hpopped, hsteps⟩ := hnear progress hgoing
  have hfirst (popped : List Nat) (frames : List (Frame D)) (seen : List Nat) :
      steps (inquiry.walkStep table) (popped ++ [place]).length
          ⟨frame :: frames, seen, progress⟩ =
        steps (inquiry.walkStep table) popped.length
          ⟨nearFrame :: if reach then farFrame :: frames else frames, place :: seen,
            progress⟩ := by
    rw [List.length_append, List.length_singleton, steps, hstep, Outcome.ok_bind]
  have hsub {popped places : List Nat} (h : popped.Subperm places) :
      (popped ++ [place]).Subperm (place :: places) :=
    (List.perm_append_singleton place popped).subperm.trans ((List.subperm_cons place).mpr h)
  have hnearOnly : popped.Subperm (nearPlaces ++ farPlaces) :=
    hpopped.trans (List.sublist_append_left _ _).subperm
  rw [hmiddle]
  simp only [Outcome.ok_bind]
  cases hreach : reach && middle.going with
  | false =>
    refine ⟨middle, popped ++ [place], ?_, hsub hnearOnly, ?_⟩
    · cases reach with
      | false => rfl
      | true => exact hdone middle hreach
    · intro frames seen
      rw [hfirst, hsteps, List.append_assoc]
      cases reach with
      | false => rfl
      | true =>
        rw [show middle.going = false from hreach]
        rfl
  | true =>
    obtain ⟨rfl, hmore⟩ := Bool.and_eq_true_iff.mp hreach
    obtain ⟨final, later, hfinal, hlater, hrest⟩ := hfar middle hmore
    refine ⟨final, later ++ popped ++ [place], hfinal, hsub ?_, ?_⟩
    · exact (hlater.append hpopped).trans List.perm_append_comm.subperm
    · intro frames seen
      rw [hfirst, List.length_append, Nat.add_comm, steps_add, hsteps, Outcome.ok_bind, hmore,
        if_pos rfl, if_pos rfl, hrest, List.append_assoc, List.append_assoc]
      rfl

/-- A search that is over looks at nothing more. -/
private theorem visit_done {progress : Progress σ} (h : progress.going = false) (node : Node N)
    (gaps : List D) (nearest : D) : inquiry.visit node gaps nearest progress = .ok progress := by
  cases node <;> simp only [visit, h, Bool.not_false, Bool.true_or, if_true]

/-- A part of the tree is searched with a stack as it is by recursion, and its places are taken
from the stack at most once each. -/
theorem Safe.visit_walks (h : inquiry.Safe) {node : Node N}
    (hfits : node.Fits inquiry.tree.dims inquiry.tree.size) {place : Nat} {places : List Nat}
    (hat : node.Occupies table place places) {gaps : List D}
    (hgaps : gaps.length = inquiry.tree.dims) (nearest : D) :
    inquiry.Walks table ⟨place, gaps, nearest⟩
      (inquiry.visit node gaps nearest : Progress σ → Except Error (Progress σ)) places := by
  induction hat generalizing gaps nearest with
  | @leaf first last place hcell =>
    intro progress hgoing
    rw [visit, hgoing, Bool.not_true, Bool.false_or]
    by_cases hpass : inquiry.passes nearest progress.state = true
    · refine ⟨progress, [place], if_pos hpass, .refl _, ?_⟩
      intro frames seen
      rw [List.length_singleton, steps_one, walkStep_passes hpass, hgoing]
      rfl
    · obtain ⟨final, hfinal⟩ := h.openLeaf_ok hfits progress
      refine ⟨final, [place], (if_neg hpass).trans hfinal, .refl _, ?_⟩
      intro frames seen
      rw [List.length_singleton, steps_one]
      simp only [walkStep, hpass, Bool.false_eq_true, if_false, hcell, hfinal, Outcome.ok_bind]
      rfl
  | @branch axis split left right place leftPlace rightPlace leftPlaces rightPlaces hcell _ _
      ihl ihr =>
    obtain ⟨haxis, hleft, hright⟩ := hfits
    obtain ⟨v, side, hv, hside, hboth⟩ := h.axis_ok haxis
    intro progress hgoing
    rw [visit, hgoing, Bool.not_true, Bool.false_or]
    by_cases hpass : inquiry.passes nearest progress.state = true
    · refine ⟨progress, [place], if_pos hpass, ?_, ?_⟩
      · exact (List.sublist_append_left [place] _).subperm
      · intro frames seen
        rw [List.length_singleton, steps_one, walkStep_passes hpass, hgoing]
        rfl
    have hlength (gap : D) : (gaps.set axis gap).length = inquiry.tree.dims :=
      List.length_set.trans hgaps
    have hchange (gap : D) : changeGap gaps axis gap = .ok (gaps.set axis gap) :=
      if_pos (hgaps.symm ▸ haxis)
    rw [if_neg hpass, hv, hside]
    dsimp only
    by_cases hlt : v < split
    · rw [if_pos hlt]
      refine walks_branch (ihl hleft hgaps nearest) (ihr hright (hlength _) _)
        (fun _ hover => visit_done hover _ _ _) hgoing ?_
      intro frames seen
      simp only [walkStep, hpass, Bool.false_eq_true, if_false, hcell, hboth, Outcome.ok_bind, hlt,
        if_true, hchange]
      rfl
    · rw [if_neg hlt]
      have hstep (frames : List (Frame D)) (seen : List Nat) :
          inquiry.walkStep table ⟨⟨place, gaps, nearest⟩ :: frames, seen, progress⟩ =
            .ok ⟨⟨rightPlace, gaps, nearest⟩ ::
              if inquiry.reaches (Scalar.total (gaps.set axis
                  (inquiry.metric.gap axis v ⟨side.low, split⟩))) progress.state then
                ⟨leftPlace, gaps.set axis (inquiry.metric.gap axis v ⟨side.low, split⟩),
                  Scalar.total (gaps.set axis
                    (inquiry.metric.gap axis v ⟨side.low, split⟩))⟩ :: frames
              else frames, place :: seen, progress⟩ := by
        simp only [walkStep, hpass, Bool.false_eq_true, if_false, hcell, hboth, Outcome.ok_bind,
          hlt, hchange]
        rfl
      obtain ⟨final, popped, hfinal, hpopped, hsteps⟩ := walks_branch (ihr hright hgaps nearest)
        (ihl hleft (hlength _) _) (fun _ hover => visit_done hover _ _ _) hgoing hstep
      exact ⟨final, popped, hfinal,
        hpopped.trans (List.Perm.cons place List.perm_append_comm).subperm, hsteps⟩

/-- A search that has come to its end stays there. -/
private theorem steps_ended {walk : Walk σ D} (h : walk.frames = []) (count : Nat) :
    steps (inquiry.walkStep table) count walk = .ok walk := by
  induction count with
  | zero => rfl
  | succ count ih =>
    have hstep : inquiry.walkStep table walk = .ok walk := by rw [walkStep, h]
    rw [steps, hstep, Outcome.ok_bind, ih]

/-- The whole tree is searched step by step over its table as it is by recursion. -/
theorem Safe.run_walk (h : inquiry.Safe) {chunkLength : Nat} {cap : Option Nat}
    (hpos : 0 < chunkLength) (htable : inquiry.tree.table chunkLength cap = .ok table)
    {progress : Progress σ} (hgoing : progress.going = true) :
    ∃ walk, inquiry.walk table progress = .ok walk ∧ walk.Ended table ∧
      inquiry.run progress = .ok walk.progress := by
  obtain ⟨hsize, places, hat, hperm⟩ := Tree.occupies_table hpos htable
  obtain ⟨hmeasure, hlength⟩ := h.measureGaps_ok
  obtain ⟨final, popped, hfinal, hpopped, hsteps⟩ :=
    h.visit_walks h.root hat hlength (Scalar.total inquiry.gaps) progress hgoing
  have hsub : popped.Subperm (List.range table.size) := hsize ▸ hpopped.trans hperm.subperm
  have hcount : popped.length ≤ table.size := by
    simpa only [List.length_range] using hsub.length_le
  refine ⟨⟨[], popped, final⟩, ?_, ⟨rfl, ?_, ?_⟩, hfinal⟩
  · have hrun := hsteps [] []
    rw [ite_self, List.append_nil] at hrun
    rw [walk, hmeasure, Outcome.ok_bind, ← Nat.add_sub_cancel' hcount, steps_add, hrun,
      Outcome.ok_bind, steps_ended rfl]
  · obtain ⟨ordered, hordered, hsublist⟩ := hsub
    exact hordered.nodup_iff.mp (hsublist.nodup List.nodup_range)
  · exact fun place hplace => List.mem_range.mp (hsub.subset hplace)

/-- Where the distances to its points are the same from another source, so is the search. -/
theorem visit_congr (inquiry : Inquiry N D) {other : Source N}
    (hsame : ∀ index ∈ inquiry.tree.order, ∀ worst,
      inquiry.metric.distanceTo inquiry.query (other.read index) worst =
        inquiry.metric.distanceTo inquiry.query (inquiry.source.read index) worst)
    (node : Node N) (gaps : List D) (nearest : D) (progress : Progress σ) :
    Inquiry.visit { inquiry with source := other } node gaps nearest progress =
      inquiry.visit node gaps nearest progress := by
  have hoffer (points : List Nat) (hpoints : ∀ index ∈ points, index ∈ inquiry.tree.order)
      (state : σ) : Inquiry.offerPoints { inquiry with source := other } points state =
        inquiry.offerPoints points state := by
    induction points generalizing state with
    | nil => rfl
    | cons index points ih =>
      have hrest := ih fun other hother => hpoints other (List.mem_cons_of_mem _ hother)
      simp only [offerPoints, hsame index (hpoints index List.mem_cons_self), hrest]
  have hopen (first last : Nat) (progress : Progress σ) :
      Inquiry.openLeaf { inquiry with source := other } first last progress =
        inquiry.openLeaf first last progress := by
    rw [openLeaf, openLeaf]
    split
    · rfl
    · cases hread : inquiry.tree.points first last with
      | error e => rfl
      | ok points =>
        simp only [Outcome.ok_bind, hoffer points fun _ => Tree.mem_order_of_points hread]
  induction node generalizing gaps nearest progress with
  | leaf first last =>
    rw [visit, visit, hopen]
    rfl
  | branch axis split left right ihl ihr =>
    rw [visit, visit]
    simp only [ihl, ihr]
    rfl

end Inquiry

namespace Source

/-- Whether another source has the same coordinates for the points of this one. -/
def Agrees (source other : Source N) : Prop :=
  ∀ index < source.size, ∀ axis < source.dims,
    other.coordinate? index axis = source.coordinate? index axis

end Source

namespace Index

/-- Whether everything that a search of an index reaches for is there. -/
structure Safe (index : Index N D) : Prop where
  dims_eq : index.dims = index.source.dims
  complete : ∀ i < index.source.size, index.source.Complete i
  readsAxes : index.metric.ReadsAxes
  part (part : Part N) : part ∈ index.parts → part.tree.dims = index.dims ∧
    part.tree.box.dims = part.tree.dims ∧ part.tree.root.Fits part.tree.dims part.tree.size ∧
      ∀ i ∈ part.tree.order, i < index.source.size

section Walks

variable {index : Index N D} {query : List N}

/-- Every part of a safe index is safe to search. -/
theorem Safe.inquiry (h : index.Safe) (hquery : query.length = index.dims) {part : Part N}
    (hpart : part ∈ index.parts) (slack : D) : Inquiry.Safe
      ⟨part.tree, index.source, index.metric, query, slack, part.isLive⟩ := by
  obtain ⟨hdims, hbox, hroot, hinside⟩ := h.part part hpart
  refine ⟨hquery.trans hdims.symm, hbox, hroot, ?_⟩
  intro i worst hi
  apply h.readsAxes.found
  intro axis haxis
  exact (h.complete i (hinside i hi)).exists_read (haxis.trans_eq (hquery.trans h.dims_eq))

variable [LT N] [DecidableLT N] [Scalar D] [Collector σ D]

/-- Trees searched step by step, one after the other, are searched as they are by recursion. -/
theorem Safe.walks_ok (h : index.Safe) (hquery : query.length = index.dims) {chunkLength : Nat}
    {cap : Option Nat} (hpos : 0 < chunkLength) (slack : D)
    {pairs : List (Part N × Table (Cell N))} (hpairs : ∀ pair ∈ pairs,
      pair.1 ∈ index.parts ∧ pair.1.tree.table chunkLength cap = .ok pair.2)
    {progress : Progress σ} (hgoing : progress.going = true) :
    ∃ walks final, index.walks query slack pairs progress = .ok (walks, final) ∧
      List.Forall₂ Walk.Ended walks ((pairs.map Prod.snd).take walks.length) ∧
      (pairs.map Prod.fst).foldlM (fun progress part => Inquiry.run
        ⟨part.tree, index.source, index.metric, query, slack, part.isLive⟩ progress) progress =
          .ok final := by
  induction pairs generalizing progress with
  | nil => exact ⟨[], progress, rfl, .nil, rfl⟩
  | cons pair pairs ih =>
    obtain ⟨part, table⟩ := pair
    obtain ⟨⟨hpart, htable⟩, hrest⟩ := List.forall_mem_cons.mp hpairs
    obtain ⟨walk, hwalk, hended, hrun⟩ :=
      (h.inquiry hquery hpart slack).run_walk hpos htable hgoing
    rw [walks]
    simp only [hwalk, Outcome.ok_bind, List.map_cons, List.foldlM_cons, hrun]
    cases hmore : walk.progress.going with
    | true =>
      obtain ⟨later, final, hlater, hends, hfold⟩ := ih hrest hmore
      refine ⟨walk :: later, final, ?_, .cons hended hends, hfold⟩
      rw [if_pos rfl, hlater]
      rfl
    | false =>
      refine ⟨[walk], walk.progress, rfl, .cons hended .nil, ?_⟩
      clear ih hpairs hrest
      induction pairs with
      | nil => rfl
      | cons pair pairs ih =>
        have hdone (inquiry : Inquiry N D) : inquiry.run walk.progress = .ok walk.progress :=
          Inquiry.visit_done hmore _ _ _
        rw [List.map_cons, List.foldlM_cons, hdone, Outcome.ok_bind, ih]

end Walks

section Find

variable [LT N] [DecidableLT N] [Distance D] [ToString D] [Collector σ D]
variable {index : Index N D} {query : List N} {options : SearchOptions D}

/-- A query that passes its checks is a search of all trees, one after the other. -/
theorem find_eq (index : Index N D) (hquery : query.length = index.dims)
    (hvalid : options.validate = .ok ())
    (state : σ) : index.find state query options =
      Progress.state <$> index.parts.foldlM (fun progress part => Inquiry.run
        ⟨part.tree, index.source, index.metric, query, options.slack, part.isLive⟩ progress)
        ⟨state, options.maxLeaves, true⟩ := by
  have hlength : ¬ query.length ≠ index.dims := not_not.mpr hquery
  rw [find, if_neg hlength, hvalid]
  rfl

/-- A query looks at no coordinate but those of the points of the source on its axes. -/
theorem Safe.find_congr (h : index.Safe) (hquery : query.length = index.dims)
    (hvalid : options.validate = .ok ()) (state : σ) {other : Source N}
    (hother : index.source.Agrees other) :
    Index.find { index with source := other } state query options =
      index.find state query options := by
  have hrun (part : Part N) (hpart : part ∈ index.parts) (progress : Progress σ) :
      Inquiry.run ⟨part.tree, other, index.metric, query, options.slack, part.isLive⟩ progress =
        Inquiry.run ⟨part.tree, index.source, index.metric, query, options.slack, part.isLive⟩
          progress := by
    obtain ⟨-, -, -, hinside⟩ := h.part part hpart
    have hsame (i : Nat) (hi : i ∈ part.tree.order) (worst : D) :
        index.metric.distanceTo query (other.read i) worst =
          index.metric.distanceTo query (index.source.read i) worst := by
      apply h.readsAxes.congr
      intro axis haxis
      rw [Source.read, Source.read,
        hother i (hinside i hi) axis (haxis.trans_eq (hquery.trans h.dims_eq))]
    exact Inquiry.visit_congr
      ⟨part.tree, index.source, index.metric, query, options.slack, part.isLive⟩ hsame _ _ _ _
  have hfold (parts : List (Part N)) (hparts : ∀ part ∈ parts, part ∈ index.parts)
      (progress : Progress σ) :
      parts.foldlM (fun progress part => Inquiry.run
        ⟨part.tree, other, index.metric, query, options.slack, part.isLive⟩ progress) progress =
      parts.foldlM (fun progress part => Inquiry.run
        ⟨part.tree, index.source, index.metric, query, options.slack, part.isLive⟩ progress)
        progress := by
    induction parts generalizing progress with
    | nil => rfl
    | cons part parts ih =>
      obtain ⟨hpart, hrest⟩ := List.forall_mem_cons.mp hparts
      rw [List.foldlM_cons, List.foldlM_cons, hrun part hpart]
      simp only [ih hrest]
  rw [index.find_eq hquery hvalid, ← hfold index.parts fun _ hpart => hpart]
  exact find_eq { index with source := other } hquery hvalid state

end Find

end Index

end Proximity
