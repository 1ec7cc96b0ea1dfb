import Mathlib
import Proximity.Forest.View
import Proximity.Proofs.Exactness
import Proximity.Proofs.Forest.Loading
import Proximity.Proofs.Walk

/-!
# Searching what was read

An index over a tree or a forest that was read from some bytes can be searched without a fault,
whatever the bytes were: the readers check everything that a search relies on to find its way, and
the source is asked for nothing that it does not have. The search may still be misled, by leaves
that miss points or by splits that do not part them.
-/

namespace Proximity

variable {N D σ : Type}

namespace Tree

variable [Coordinate N] [Storable N]

/-- A tree over all points of a source is read as any tree is, and its numbers are compared with
those of the source. -/
theorem load_eq_ok {source : Source N} {stream rest : Stream} {tree : Tree N} :
    load source stream = .ok (tree, rest) ↔ read stream = .ok ((tree, source.size), rest) ∧
      tree.size = source.size ∧ tree.dims = source.dims := by
  rw [load, Reader.bind_eq_ok]
  constructor
  · rintro ⟨⟨other, sourceSize⟩, after, hread, h⟩
    obtain ⟨hsource, h⟩ := Reader.guard_eq_ok.mp h
    obtain ⟨hsize, h⟩ := Reader.guard_eq_ok.mp h
    obtain ⟨hdims, h⟩ := Reader.guard_eq_ok.mp h
    cases Reader.pure_eq_ok.mp h
    rw [not_not] at hsource hsize hdims
    subst hsource
    exact ⟨hread, hsize, hdims⟩
  · rintro ⟨hread, hsize, hdims⟩
    refine ⟨_, rest, hread, ?_⟩
    refine Reader.guard_eq_ok.mpr ⟨not_not.mpr rfl, Reader.guard_eq_ok.mpr ⟨not_not.mpr hsize, ?_⟩⟩
    exact Reader.guard_eq_ok.mpr ⟨not_not.mpr hdims, rfl⟩

end Tree

namespace Forest

/-- A source that a forest can be asked over has its axes, and all points that it ever held. -/
theorem toIndex_eq_ok {forest : Forest N D} {source : Source N} {index : Index N D} :
    forest.toIndex source = .ok index ↔ source.dims = forest.dims ∧
      forest.directory.size ≤ source.size ∧
      index = ⟨forest.dims, forest.size, source, forest.metric, forest.parts⟩ := by
  rw [toIndex, requireView, requireSource]
  by_cases hdims : source.dims = forest.dims
  · rw [if_neg (not_not.mpr hdims), Outcome.ok_bind]
    by_cases hsize : source.size < forest.directory.size
    · rw [if_pos hsize]
      exact ⟨fun h => (nomatch h), fun h => absurd h.2.1 (Nat.not_le.mpr hsize)⟩
    · rw [if_neg hsize]
      exact ⟨fun h => ⟨hdims, Nat.le_of_not_lt hsize, (Except.ok.inj h).symm⟩,
        fun h => congrArg Except.ok h.2.2.symm⟩
  · rw [if_pos hdims]
    exact ⟨fun h => (nomatch h), fun h => absurd h.1 hdims⟩

variable [Coordinate N] [Storable N]

/-- Whether every tree of a forest was read, over a source of some size, and all its points are
alive. -/
def Fresh (forest : Forest N D) (sourceSize : Nat) : Prop :=
  ∀ plot, some plot ∈ forest.slots → plot.removed = [] ∧ plot.tree.dims = forest.dims ∧
    ∃ stream rest, Tree.read stream = .ok ((plot.tree, sourceSize), rest)

/-- Slots that are read leave a forest from which nothing was removed. -/
theorem Fresh.readSlots {sourceSize count : Nat} {forest final : Forest N D}
    {stream rest : Stream} (hfresh : forest.Fresh sourceSize)
    (h : readSlots sourceSize count forest stream = .ok (final, rest)) :
    final.Fresh sourceSize ∧ final.dims = forest.dims ∧ final.metric = forest.metric := by
  induction count generalizing forest stream with
  | zero =>
    obtain ⟨rfl, -⟩ := Prod.mk.inj (Except.ok.inj h)
    exact ⟨hfresh, rfl, rfl⟩
  | succ count ih =>
    obtain ⟨present, after, -, hcases⟩ := readSlots_succ_eq_ok.mp h
    rcases hcases with ⟨-, h⟩ | ⟨-, -, tree, rest', hread, hdims, -, directory, -, h⟩
    · have hskip : forest.skip.Fresh sourceSize := by
        intro plot hplot
        rcases List.mem_append.mp hplot with hplot | hplot
        · exact hfresh plot hplot
        · nomatch List.mem_singleton.mp hplot
      obtain ⟨hfinal, hsame⟩ := ih hskip h
      exact ⟨hfinal, hsame⟩
    · have hplant : (forest.plant tree directory).Fresh sourceSize := by
        intro plot hplot
        rcases List.mem_append.mp hplot with hplot | hplot
        · exact hfresh plot hplot
        · obtain rfl := Option.some.inj (List.mem_singleton.mp hplot)
          exact ⟨rfl, hdims, after, rest', hread⟩
      obtain ⟨hfinal, hsame⟩ := ih hplant h
      exact ⟨hfinal, hsame⟩

/-- A loaded forest has nothing removed, with the dimensions of the source and the metric given. -/
theorem fresh_load {source : Source N} {maxNodes : Option Nat} {metric : Metric N D}
    {forest : Forest N D} {stream rest : Stream}
    (h : load source maxNodes metric stream = .ok (forest, rest)) :
    forest.Fresh source.size ∧ forest.dims = source.dims ∧ forest.metric = metric := by
  obtain ⟨header, after, -, -, hdims, hsize, -, -, begun, hempty, h⟩ := load_eq_ok.mp h
  obtain ⟨-, -, -, rfl⟩ := empty_eq_ok.mp hempty
  rw [hsize] at h
  have hbegun : (⟨wordAt header 2 2, ⟨wordAt header 4 4, maxNodes⟩, metric, [],
      wordAt header 12 8, .empty, 0⟩ : Forest N D).Fresh source.size :=
    fun plot hplot => absurd hplot List.not_mem_nil
  obtain ⟨hfresh, hsame, hmetric⟩ := hbegun.readSlots h
  exact ⟨hfresh, hsame.trans hdims, hmetric⟩

omit [Coordinate N] [Storable N] in
/-- A point alive in a forest lies within the reach of its directory. -/
theorem Sound.lt_directory {forest : Forest N D} (h : forest.Sound) {slot index : Nat}
    (hhouse : forest.Houses slot index) : index < forest.directory.size := by
  have hslot := (h.home index slot).mpr hhouse
  by_contra hge
  rw [Directory.slot?, Array.getElem?_eq_none (Nat.le_of_not_lt hge)] at hslot
  cases hslot

end Forest

namespace Index

variable [Coordinate N] [Storable N]

/-- An index over what was read from a stream, over the source it was read for or, if it is a
forest, any other that it can be asked over. -/
inductive Loaded : Index N D → Prop
  | tree {source tree metric stream rest} : Tree.load source stream = .ok (tree, rest) →
      Loaded (.ofTree tree source metric)
  | forest {source maxNodes metric stream forest rest view index} :
      Forest.load source maxNodes metric stream = .ok (forest, rest) →
      forest.toIndex view = .ok index → Loaded index

variable {index : Index N D}

/-- Every tree of an index that was read was read, and over points that its source has. -/
theorem Loaded.part (h : index.Loaded) : index.dims = index.source.dims ∧
    ∀ part ∈ index.parts, part.tree.dims = index.dims ∧
      (∀ i ∈ part.tree.order, i < index.source.size) ∧
      ∃ sourceSize stream rest, Tree.read stream = .ok ((part.tree, sourceSize), rest) := by
  cases h with
  | @tree source tree metric stream rest hload =>
    obtain ⟨hread, -, hdims⟩ := Tree.load_eq_ok.mp hload
    refine ⟨hdims, ?_⟩
    intro part hpart
    obtain rfl := List.mem_singleton.mp hpart
    exact ⟨rfl, (Tree.read_eq_ok hread).1.inside, _, _, _, hread⟩
  | @forest source maxNodes metric stream forest rest view _ hload hindex =>
    obtain ⟨hdims, hreach, rfl⟩ := Forest.toIndex_eq_ok.mp hindex
    obtain ⟨hfresh, -⟩ := Forest.fresh_load hload
    have hsound := Forest.sound_load hload
    refine ⟨hdims.symm, ?_⟩
    intro part hpart
    obtain ⟨entry, hentry, hpart⟩ := List.mem_filterMap.mp hpart
    obtain ⟨plot, rfl, rfl⟩ := Option.map_eq_some_iff.mp hpart
    obtain ⟨hremoved, hplotDims, hread⟩ := hfresh plot hentry
    refine ⟨hplotDims, ?_, _, hread⟩
    intro i hi
    obtain ⟨slot, hslot⟩ := List.mem_iff_getElem?.mp hentry
    have hlive : i ∈ plot.livePoints := by
      refine Plot.mem_livePoints.mpr ⟨hi, ?_⟩
      rw [hremoved]
      exact List.not_mem_nil
    exact (hsound.lt_directory ⟨plot, Forest.plot?_eq_some.mpr hslot, hlive⟩).trans_le hreach

/-- A loaded index is safe to search over a source whose coordinates are all there. -/
theorem Loaded.safe (h : index.Loaded)
    (hcomplete : ∀ i < index.source.size, index.source.Complete i)
    (hmetric : index.metric.ReadsAxes) : index.Safe := by
  obtain ⟨hdims, hparts⟩ := h.part
  refine ⟨hdims, hcomplete, hmetric, ?_⟩
  intro part hpart
  obtain ⟨hpartDims, hinside, sourceSize, stream, rest, hread⟩ := hparts part hpart
  obtain ⟨hfits, -⟩ := Tree.read_eq_ok hread
  exact ⟨hpartDims, hfits.box_dims, hfits.root, hinside⟩

/-- Every tree of an index that was read has a table. -/
theorem Loaded.table (h : index.Loaded) (part : Part N) (hpart : part ∈ index.parts)
    (chunkLength : Nat) : ∃ table, part.tree.table chunkLength none = .ok table := by
  obtain ⟨-, -, sourceSize, stream, rest, hread⟩ := h.part.2 part hpart
  obtain ⟨-, -, table, -, -, htable, -⟩ := Tree.table_of_read hread chunkLength
  exact ⟨table, htable⟩

variable [Distance D] [ToString D] [Collector σ D]

/-- A search of what was read comes to its end without a fault. Over the tables that the trees were
read into it takes every place from its stack at most once, and what it finds does not depend on
anything but the coordinates that the source has for its points. -/
theorem Loaded.find_ends (h : index.Loaded)
    (hcomplete : ∀ i < index.source.size, index.source.Complete i)
    (hmetric : index.metric.ReadsAxes) {query : List N} (hquery : query.length = index.dims)
    {options : SearchOptions D} (hvalid : options.validate = .ok ()) (state : σ)
    {chunkLength : Nat} (hchunk : 0 < chunkLength) :
    ∃ (tables : List (Table (Cell N))) (walks : List (Walk σ D)) (final : Progress σ),
      List.Forall₂ (fun part table => part.tree.table chunkLength none = .ok table)
        index.parts tables ∧
      index.walks query options.slack (index.parts.zip tables)
        ⟨state, options.maxLeaves, true⟩ = .ok (walks, final) ∧
      List.Forall₂ Walk.Ended walks (tables.take walks.length) ∧
      ∀ other, index.source.Agrees other →
        Index.find { index with source := other } state query options = .ok final.state := by
  have hsafe := h.safe hcomplete hmetric
  obtain ⟨tables, htables⟩ := Outcome.exists_forall₂
    fun part hpart => h.table part hpart chunkLength
  have hfst : (index.parts.zip tables).map Prod.fst = index.parts :=
    List.map_fst_zip htables.length_eq.le
  have hsnd : (index.parts.zip tables).map Prod.snd = tables :=
    List.map_snd_zip htables.length_eq.ge
  have hpairs : ∀ pair ∈ index.parts.zip tables,
      pair.1 ∈ index.parts ∧ pair.1.tree.table chunkLength none = .ok pair.2 :=
    fun pair hpair => ⟨(List.of_mem_zip hpair).1, List.forall₂_zip htables hpair⟩
  have hgoing : (⟨state, options.maxLeaves, true⟩ : Progress σ).going = true := rfl
  obtain ⟨walks, final, hwalks, hended, hfold⟩ :=
    hsafe.walks_ok hquery hchunk options.slack hpairs hgoing
  rw [hsnd] at hended
  rw [hfst] at hfold
  refine ⟨tables, walks, final, htables, hwalks, hended, ?_⟩
  intro other hother
  rw [hsafe.find_congr hquery hvalid state hother, index.find_eq hquery hvalid, hfold]
  rfl

end Index

/-- The index over four bytes, read again, is searched to its end. -/
theorem find_ends_bytes :
    (Index.ofTree byteTree byteSource (.squaredEuclidean : Metric UInt8 Binary64)).Loaded ∧
    (∀ i < byteSource.size, byteSource.Complete i) ∧
    (.squaredEuclidean : Metric UInt8 Binary64).ReadsAxes ∧
    (SearchOptions.standard : SearchOptions Binary64).validate = .ok () ∧
    ∃ (tables : List (Table (Cell UInt8))) (walks : List (Walk (Nearest Binary64) Binary64))
      (final : Progress (Nearest Binary64)),
      List.Forall₂ (fun (part : Part UInt8) table => part.tree.table 8 none = .ok table)
        [⟨byteTree, fun _ => true⟩] tables ∧
      List.Forall₂ Walk.Ended walks (tables.take walks.length) ∧
      ∀ other, byteSource.Agrees other →
        Index.find (Index.ofTree byteTree other .squaredEuclidean) (Nearest.ofSize 2) [0]
          .standard = .ok final.state := by
  have hload : Tree.load byteSource (Stream.ofBytes (byteTree.encode byteSource.size)) =
      .ok (byteTree, ⟨[], .closed⟩) := by decide +kernel
  have hcomplete (i : Nat) (hi : i < byteSource.size) : byteSource.Complete i :=
    (finite_byteSource i hi).complete
  have hvalid : (SearchOptions.standard : SearchOptions Binary64).validate = .ok () := by
    decide +kernel
  have hmetric : (.squaredEuclidean : Metric UInt8 Binary64).ReadsAxes :=
    Metric.readsAxes_squaredEuclidean
  have hloaded : (Index.ofTree byteTree byteSource
      (.squaredEuclidean : Metric UInt8 Binary64)).Loaded := .tree hload
  have hquery : ([0] : List UInt8).length = (Index.ofTree byteTree byteSource
      (.squaredEuclidean : Metric UInt8 Binary64)).dims := rfl
  have hchunk : 0 < 8 := by decide
  obtain ⟨tables, walks, final, htables, -, hended, hfind⟩ :=
    hloaded.find_ends hcomplete hmetric hquery hvalid
      (Nearest.ofSize 2 : Nearest Binary64) hchunk
  exact ⟨hloaded, hcomplete, hmetric, hvalid, tables, walks, final, htables, hended, hfind⟩

end Proximity
