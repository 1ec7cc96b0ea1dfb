import Mathlib
import Proximity.Proofs.Abreast
import Proximity.Proofs.Forest.Twins

/-!
# Forests that mirror each other

The trees of twins have the same points alive, but need not be over the same points. While a source
has no more points than a word can count it does not matter, since no query is lost there. Trees
that come about by an insertion into both twins are over the same points, and mirror each other. So
once twins over such a source have grown together, an exact query is lost in both of them or in
neither, if the metric makes the same of values that are numerically equal.
-/

namespace Proximity

variable {N D σ : Type} [Coordinate N]

section Growth

variable {source smaller : Source N}

/-- Points that coincide do so when their source has grown. -/
theorem Source.Coincide.grown {points : List Nat} (hext : source.Extends smaller)
    (h : smaller.Coincide points) (hinside : ∀ index ∈ points, index < smaller.size) :
    source.Coincide points := by
  intro i hi j hj axis haxis v w hv hw
  rw [hext.coordinate?_eq i (hinside i hi)] at hv
  rw [hext.coordinate?_eq j (hinside j hj)] at hw
  exact h i hi j hj axis (hext.dims_eq ▸ haxis) v w hv hw

/-- A node stays strict when its source grows. -/
theorem Node.Strict.grown {order : Array Nat} {node : Node N} (hext : source.Extends smaller)
    (h : node.Strict smaller order) (hinside : ∀ index ∈ node.points order, index < smaller.size) :
    node.Strict source order := by
  induction node with
  | leaf first last => trivial
  | branch axis split left right ihl ihr =>
    obtain ⟨hbelow, hleft, hright⟩ := h
    obtain ⟨hinl, hinr⟩ := List.forall_mem_append.mp hinside
    refine ⟨hbelow.imp (fun hbelow index hindex => ?_) (·.grown hext hinside), ihl hleft hinl,
      ihr hright hinr⟩
    rw [hext.coordinate?_eq index (hinl index hindex)]
    exact hbelow index hindex

/-- Trees still mirror each other when their source has grown. -/
theorem Tree.Mirrors.grown {tree other : Tree N} (hext : source.Extends smaller)
    (h : tree.Mirrors smaller other) (hinside : ∀ index ∈ tree.order, index < smaller.size) :
    tree.Mirrors source other := by
  have hinside' (index) (hindex : index ∈ other.order) : index < smaller.size :=
    hinside index (Array.mem_toList_iff.mp (h.perm.mem_iff.mpr (Array.mem_toList_iff.mpr hindex)))
  have htidy {tree : Tree N} (hmeant : tree.Meant smaller)
      (htidy : tree.root.Tidy smaller tree.order)
      (hinside : ∀ index ∈ tree.order, index < smaller.size) :
      tree.root.Tidy source tree.order := by
    have hbelow (index) (hindex : index ∈ tree.root.points tree.order) : index < smaller.size := by
      rw [hmeant.searchable.points_eq] at hindex
      exact hinside index (Array.mem_toList_iff.mp hindex)
    exact ⟨htidy.inRange, htidy.narrow, htidy.ordered.grown hext hbelow,
      htidy.strict.grown hext hbelow, htidy.stocked⟩
  exact ⟨h.meant.grown hext hinside, h.meant'.grown hext hinside', h.box, h.perm, h.root,
    htidy h.meant h.tidy hinside, htidy h.meant' h.tidy' hinside'⟩

end Growth

/-- Whether a search can go through two slots abreast, one in a forest and one in another: the trees
there keep trees that mirror each other, or what is there can be searched as it is. -/
inductive Tree.Beside (source : Source N) : Option (Tree N) → Option (Tree N) → Prop
  | mirrored {tree other : Tree N} : tree.Mirrors source other →
      Beside source (some tree.stored) (some other.stored)
  | searchable {tree other : Option (Tree N)} : (∀ t, tree = some t → t.Searchable source) →
      (∀ t, other = some t → t.Searchable source) → Beside source tree other

namespace Index

variable [Distance D] [LawfulDistance D] [Collector σ D] {index : Index N D} {query : List N}
variable {track : σ → List Nat → Prop}

/-- What an exact query asks of a part of an index. -/
def exact (index : Index N D) (query : List N) (part : Part N) : Inquiry N D :=
  ⟨part.tree, index.source, index.metric, query, 0, part.isLive⟩

omit [Coordinate N] in
/-- An exact query compares distances as they are. -/
theorem stretch_exact (part : Part N) : (index.exact query part).stretch = id :=
  funext fun _ => if_pos LawfulDistance.zero_le

/-- An exact query of a tree that can be searched may rely on it. -/
theorem sound_exact (hlength : query.length = index.source.dims)
    (hbounds : index.metric.Bounds query) {part : Part N}
    (htree : part.tree.Searchable index.source) : (index.exact query part).Sound := by
  refine ⟨htree, hlength, hbounds, ?_, fun i hi _ => ?_⟩
  · rw [stretch_exact]
    exact id
  · rw [Inquiry.reach, stretch_exact]
    exact Comparison.right (hbounds.total_le part.tree.box _
      (htree.box_dims.trans hlength.symm) (htree.finite i hi).coordinates (htree.covered i hi))

/-- The exact search of the trees in a row of slots. -/
def sweep (index : Index N D) (query : List N) (slots : List (Option (Plot N)))
    (start : Progress σ) : Except Error (Progress σ) :=
  (slots.filterMap fun slot => slot.map fun plot => ⟨plot.tree, plot.isLive⟩).foldlM
    (fun progress part => (index.exact query part).run progress) start

omit [LawfulDistance D] in
/-- A row of slots is searched slot by slot. -/
theorem sweep_cons (slot : Option (Plot N)) (slots : List (Option (Plot N))) (start : Progress σ) :
    index.sweep query (slot :: slots) start =
      index.sweep query [slot] start >>= index.sweep query slots := by
  unfold sweep
  rw [← List.singleton_append, List.filterMap_append, List.foldlM_append]

omit [LawfulDistance D] in
/-- An occupied slot is searched as its tree is. -/
theorem sweep_singleton (plot : Plot N) :
    index.sweep (σ := σ) query [some plot] = (index.exact query ⟨plot.tree, plot.isLive⟩).run := by
  funext start
  exact bind_pure _

/-- All points alive in a slot are seen if its tree can be searched as it is. -/
theorem sweep_sees (hlength : query.length = index.source.dims)
    (hbounds : index.metric.Bounds query) (hs : Steers (index.distance query) track)
    {slot : Option (Plot N)}
    (hsearch : ∀ tree, slot.map Plot.tree = some tree → tree.Searchable index.source) :
    Sees track (index.sweep query [slot]) (slot.elim [] Plot.livePoints) := by
  cases slot with
  | none => exact fun state seen hstate => ⟨state, rfl, hstate⟩
  | some plot =>
    have hreach : (index.exact query ⟨plot.tree, plot.isLive⟩).reach = index.distance query := by
      funext i
      rw [Inquiry.reach, stretch_exact]
      rfl
    rw [sweep_singleton]
    refine Inquiry.run_sees (sound_exact hlength hbounds (hsearch plot.tree rfl)) ?_
    exact hreach.symm ▸ hs.toTracks

/-- Slots beside each other, with the same points alive, are searched abreast. -/
theorem slot_abreast [LawfulCoordinate N] (hlength : query.length = index.source.dims)
    (hbounds : index.metric.Bounds query) (hnumeric : index.metric.Numeric query)
    (hs : Steers (index.distance query) track) {slot other : Option (Plot N)}
    (h : Tree.Beside index.source (slot.map Plot.tree) (other.map Plot.tree))
    (hperm : (slot.elim [] Plot.livePoints).Perm (other.elim [] Plot.livePoints)) {state state' : σ}
    {seen : List Nat} (hstate : track state seen) (hstate' : track state' seen) :
    Outcome.Both
      (Inquiry.Abreast fun next next' => ∃ seen, track next seen ∧ track next' seen)
      (index.sweep query [slot] ⟨state, none, true⟩)
      (index.sweep query [other] ⟨state', none, true⟩) := by
  generalize hfirst : slot.map Plot.tree = first at h
  generalize hsecond : other.map Plot.tree = second at h
  cases h with
  | @mirrored tree tree' hmirrors =>
    obtain ⟨plot, rfl, htree⟩ := Option.map_eq_some_iff.mp hfirst
    obtain ⟨plot', rfl, htree'⟩ := Option.map_eq_some_iff.mp hsecond
    have hlive (i : Nat) (hi : i ∈ tree.order) : plot'.isLive i = plot.isLive i := by
      have hmem := hperm.mem_iff (a := i)
      simp only [Option.elim_some, Plot.livePoints, List.mem_filter, htree, htree'] at hmem
      have hi := Array.mem_toList_iff.mpr hi
      have hi' := hmirrors.perm.mem_iff.mp hi
      rw [Bool.eq_iff_iff]
      exact ⟨fun h => (hmem.mpr ⟨hi', h⟩).2, fun h => (hmem.mp ⟨hi, h⟩).2⟩
    have hinquiry : (index.exact query ⟨tree, plot.isLive⟩).Mirrors ⟨tree', plot'.isLive⟩ :=
      ⟨sound_exact hlength hbounds hmirrors.meant.searchable,
        sound_exact hlength hbounds hmirrors.meant'.searchable, hmirrors, hlive,
        LawfulDistance.zero_le, hnumeric⟩
    rw [sweep_singleton, sweep_singleton, htree, htree']
    exact hinquiry.run_abreast hs hstate hstate'
  | searchable hsearch hsearch' =>
    obtain ⟨next, hrun, htrack⟩ :=
      sweep_sees hlength hbounds hs (hfirst ▸ hsearch) state seen hstate
    obtain ⟨next', hrun', htrack'⟩ :=
      sweep_sees hlength hbounds hs (hsecond ▸ hsearch') state' seen hstate'
    rw [hrun, hrun']
    exact .ok (.intro ⟨_, htrack, hs.perm (hperm.symm.append_right seen) htrack'⟩)

/-- Rows of slots beside each other, with the same points alive, are searched abreast. -/
theorem sweep_abreast [LawfulCoordinate N] (hlength : query.length = index.source.dims)
    (hbounds : index.metric.Bounds query) (hnumeric : index.metric.Numeric query)
    (hs : Steers (index.distance query) track) {slots others : List (Option (Plot N))}
    (h : List.Forall₂ (fun slot other =>
      Tree.Beside index.source (slot.map Plot.tree) (other.map Plot.tree) ∧
        (slot.elim [] Plot.livePoints).Perm (other.elim [] Plot.livePoints)) slots others)
    {state state' : σ} {seen : List Nat} (hstate : track state seen)
    (hstate' : track state' seen) :
    Outcome.Both
      (Inquiry.Abreast fun next next' => ∃ seen, track next seen ∧ track next' seen)
      (index.sweep query slots ⟨state, none, true⟩)
      (index.sweep query others ⟨state', none, true⟩) := by
  induction h generalizing state state' seen with
  | nil => exact .ok (.intro ⟨seen, hstate, hstate'⟩)
  | @cons slot other slots others hslot _ ih =>
    obtain ⟨hbeside, hperm⟩ := hslot
    rw [sweep_cons slot, sweep_cons other]
    refine (slot_abreast hlength hbounds hnumeric hs hbeside hperm hstate hstate').bind ?_
    rintro _ _ - - ⟨seen, hnext, hnext'⟩
    exact ih hnext hnext'

variable [ToString D]

/-- Whether an exact query comes to its end in two indexes or fails alike in both, whatever
collector follows the points that it sees. -/
structure Abreast (index other : Index N D) (query : List N) : Prop where
  metric_eq : other.metric = index.metric
  find {σ : Type} [Collector σ D] {track : σ → List Nat → Prop} {start : σ} :
    Steers (index.distance query) track → track start [] →
      Outcome.Both (fun _ _ => True) (index.find start query .standard)
        (other.find start query .standard)

namespace Abreast

variable {other : Index N D}

/-- Indexes searched abreast answer both for the nearest points, or fail alike. -/
theorem nearest (h : index.Abreast other query) (k : Nat) :
    Outcome.Both (fun _ _ => True) (index.nearest query k) (other.nearest query k) := by
  rcases Nat.eq_zero_or_pos k with rfl | hk
  · exact .error _
  · have hsome : requireSome k = .ok () := if_neg hk.ne'
    unfold Index.nearest nearestWith
    rw [hsome]
    exact (h.find (Nearest.steers _ hk _) (Nearest.follows_start _ k _)).bind
      fun _ _ _ _ _ => .ok trivial

/-- Indexes searched abreast answer both for the nearest points within a radius, or fail alike. -/
theorem nearestWithin (h : index.Abreast other query) (k : Nat) (radius : D) :
    Outcome.Both (fun _ _ => True) (index.nearestWithin query k radius .standard)
      (other.nearestWithin query k radius .standard) := by
  rcases Nat.eq_zero_or_pos k with rfl | hk
  · exact .error _
  · have hsome : requireSome k = .ok () := if_neg hk.ne'
    unfold Index.nearestWithin
    rw [hsome, h.metric_eq]
    refine .bind_same (requireRadius radius) fun _ => ?_
    exact (h.find (Nearest.steers _ hk _) (Nearest.follows_start _ k _)).bind
      fun _ _ _ _ _ => .ok trivial

omit [LawfulDistance D] in
/-- Indexes searched abreast list both the points within a radius, or fail alike. -/
theorem within (h : index.Abreast other query) (radius : D) :
    Outcome.Both (fun _ _ => True) (index.within query radius .standard)
      (other.within query radius .standard) := by
  unfold Index.within
  rw [h.metric_eq]
  refine .bind_same (requireRadius radius) fun _ => ?_
  exact (h.find (Within.steers _ _) (Within.follows_start _ _)).bind fun _ _ _ _ _ => .ok trivial

end Abreast

end Index

namespace Forest

/-- Whether all slots of two forests are beside each other. -/
def Mirrors (source : Source N) (forest other : Forest N D) : Prop :=
  ∀ slot, Tree.Beside source ((forest.plot? slot).map Plot.tree) ((other.plot? slot).map Plot.tree)

variable {forest other : Forest N D} {source : Source N}

omit [Coordinate N] in
/-- A removal leaves all trees where they are. -/
theorem Sound.tree_remove (h : forest.Sound) (index slot : Nat) :
    ((forest.remove index).1.plot? slot).map Plot.tree = (forest.plot? slot).map Plot.tree := by
  rcases h.remove_cases index with ⟨-, heq⟩ | ⟨home, plot, hplot, -, heq⟩
  · rw [heq]
  · rw [heq, plot?_strike hplot]
    by_cases hhome : slot = home
    · rw [if_pos hhome, hhome, hplot]
      rfl
    · rw [if_neg hhome]

namespace Mirrors

/-- Forests still mirror each other when their source has grown. -/
theorem grown {smaller : Source N} (hext : source.Extends smaller)
    (h : forest.Mirrors smaller other) (hserves : forest.Serves smaller)
    (hserves' : other.Serves smaller) :
    forest.Mirrors source other := by
  have hinside {forest : Forest N D} (hserves : forest.Serves smaller) {slot : Nat} {tree : Tree N}
      (htree : (forest.plot? slot).map Plot.tree = some tree) :
      ∀ index ∈ tree.order, index < smaller.size := by
    obtain ⟨plot, hplot, rfl⟩ := Option.map_eq_some_iff.mp htree
    exact hserves.inside slot plot hplot
  intro slot
  have hslot := h slot
  generalize hfirst : (forest.plot? slot).map Plot.tree = first at hslot ⊢
  generalize hsecond : (other.plot? slot).map Plot.tree = second at hslot ⊢
  cases hslot with
  | mirrored hmirrors =>
    exact .mirrored (hmirrors.grown hext fun index hindex => hinside hserves hfirst index hindex)
  | searchable hsearch hsearch' =>
    exact .searchable
      (fun tree htree => (hsearch tree htree).grown hext (hinside hserves (hfirst.trans htree)))
      fun tree htree => (hsearch' tree htree).grown hext (hinside hserves' (hsecond.trans htree))

/-- Forests still mirror each other when a point is removed from both. -/
theorem remove (h : forest.Mirrors source other) (hsound : forest.Sound) (hsound' : other.Sound)
    (index : Nat) : (forest.remove index).1.Mirrors source (other.remove index).1 := by
  intro slot
  rw [hsound.tree_remove, hsound'.tree_remove]
  exact h slot

variable [LawfulCoordinate N]

/-- Twins that mirror each other still do when a point is inserted into both. -/
theorem insert (h : forest.Mirrors source other) (htwins : forest.Twins other)
    (hserves : forest.Serves source) (hfinite : source.Finite) {index : Nat}
    {next next' : Forest N D} (hinsert : forest.insert source index = .ok next)
    (hinsert' : other.insert source index = .ok next') : next.Mirrors source next' := by
  obtain ⟨tree, hinserted, rfl⟩ := insert_eq_ok hinsert
  obtain ⟨tree', hinserted', rfl⟩ := insert_eq_ok hinsert'
  have hperm := htwins.merged_perm index
  have hnodup := hinserted.perm.nodup_iff.mp (hinserted.order_nodup hserves.sound)
  have hwords (point) (hpoint : point ∈ forest.merged index) : point ≤ maxWord32 :=
    hserves.merged_le hinserted.le_word hpoint
  have hpoints (point) (hpoint : point ∈ forest.merged index) : source.FiniteAt point :=
    hfinite point (hserves.merged_lt hinserted.lt_size hpoint)
  have hbuild' := hinserted'.build
  rw [htwins.options_eq] at hbuild'
  have hbox : tree.box.Alike tree'.box :=
    (Tree.build_alike (.of_perm hpoints hperm) none nofun).of_eq_ok hinserted.build hbuild'
  obtain ⟨meant, meant', rfl, rfl, hmirrors⟩ := (Tree.build_eq_ok hinserted.build).exists_mirrors
    (Tree.build_eq_ok hbuild') hpoints hnodup hwords hperm hbox
  intro slot
  rw [plot?_settle, plot?_settle, htwins.counter_eq]
  split
  · exact .searchable nofun nofun
  split
  · exact .mirrored hmirrors
  · exact h slot

variable [Distance D] [LawfulDistance D] [ToString D]

/-- Twins that mirror each other are searched abreast, so an exact query is lost in both of them or
in neither. -/
theorem abreast (h : forest.Mirrors source other) (htwins : forest.Twins other)
    (hserves : forest.Serves source) {query : List N}
    (hmetric : query.length = source.dims → forest.metric.Bounds query)
    (hnumeric : forest.metric.Numeric query) :
    Index.Abreast ⟨forest.dims, forest.size, source, forest.metric, forest.parts⟩
      ⟨other.dims, other.size, source, other.metric, other.parts⟩ query := by
  refine ⟨htwins.metric_eq, fun hs hstart => ?_⟩
  have hsource := hserves.dims_eq
  by_cases hlength : query.length = forest.dims
  · have hslots : List.Forall₂ (fun slot other : Option (Plot N) =>
        Tree.Beside source (slot.map Plot.tree) (other.map Plot.tree) ∧
          (slot.elim [] Plot.livePoints).Perm (other.elim [] Plot.livePoints))
        forest.slots other.slots := by
      refine List.forall₂_iff_get.mpr ⟨htwins.length_eq.symm, fun slot hlt hlt' => ?_⟩
      have hplot : forest.plot? slot = forest.slots[slot] := by
        rw [plot?, List.getElem?_eq_getElem hlt, Option.join_some]
      have hplot' : other.plot? slot = other.slots[slot] := by
        rw [plot?, List.getElem?_eq_getElem hlt', Option.join_some]
      have halive := htwins.alive slot
      have hbeside := h slot
      rw [alive, alive, hplot, hplot'] at halive
      rw [hplot, hplot'] at hbeside
      exact ⟨hbeside, halive⟩
    let index : Index N D := ⟨forest.dims, forest.size, source, forest.metric, forest.parts⟩
    have hboth := index.sweep_abreast (hlength.trans hsource.symm)
      (hmetric (hlength.trans hsource.symm)) hnumeric hs hslots hstart hstart
    have hvalid : (SearchOptions.standard : SearchOptions D).validate = .ok () :=
      if_pos LawfulDistance.zero_le
    unfold Index.find
    rw [if_neg (not_not.mpr hlength), if_neg (not_not.mpr (hlength.trans htwins.dims_eq.symm)),
      htwins.metric_eq, hvalid]
    exact hboth.bind fun _ _ _ _ _ => .ok trivial
  · rw [Index.find_of_length_ne hlength,
      Index.find_of_length_ne (show query.length ≠ other.dims from htwins.dims_eq ▸ hlength),
      htwins.dims_eq]
    exact .error _

end Mirrors

end Forest

end Proximity
