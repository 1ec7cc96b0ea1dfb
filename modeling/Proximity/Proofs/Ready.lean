import Mathlib
import Proximity.Proofs.Restored

/-!
# Indexes ready to be asked

An index is one tree over all points of a source, or the trees of a forest with the points alive in
them, however the forest came about. In both cases the points that count are distinct points of the
source, and the trees can be searched as they are meant, but for one with more points than a word
can count.
-/

namespace Proximity

variable {N D : Type} [Coordinate N]

namespace Forest

/-- How a forest comes about by calls over a source that may grow in between, saved and loaded at
times. -/
inductive Kept [Storable N] : Source N → Forest N D → Prop
  | empty {source : Source N} {options metric forest} :
      Forest.empty source.dims options metric = .ok forest → Kept source forest
  | call {source : Source N} {forest} (call : Call) :
      Kept source forest → Kept source (forest.perform source call)
  | grow {source smaller : Source N} {forest} :
      Kept smaller forest → source.Extends smaller → Kept source forest
  | load {source : Source N} {forest bytes loaded rest} :
      Kept source forest → (forest.save source).toBytes = .ok bytes →
      Forest.load source forest.options.maxNodes forest.metric (Stream.ofBytes bytes) =
        .ok (loaded, rest) → Kept source loaded

variable [Storable N] {forest : Forest N D} {source : Source N}

/-- A forest need not have been saved. -/
theorem History.kept (h : History source forest) : Kept source forest := by
  induction h with
  | empty hempty => exact .empty hempty
  | call call _ ih => exact .call call ih
  | grow _ hext ih => exact .grow ih hext

variable [LawfulCoordinate N]

/-- What is loaded of a forest is the forest restored, and it can be written again. -/
theorem Writable.restored (h : forest.Writable source) {bytes : List UInt8}
    {loaded : Forest N D} {rest : Stream} (hsave : (forest.save source).toBytes = .ok bytes)
    (hload : Forest.load source forest.options.maxNodes forest.metric (Stream.ofBytes bytes) =
      .ok (loaded, rest)) :
    (∃ stored, List.Forall₂ (Stores forest.options source) forest.slots stored ∧
      loaded = forest.restored stored) ∧ loaded.Writable source := by
  obtain ⟨stored, hstored, rfl⟩ := save_eq_ok.mp hsave
  have hbuilt {tree : Tree N} (htree : some tree ∈ stored) := h.stored_builtBefore hstored htree
  obtain ⟨-, -, hresult⟩ :=
    (h.load_iff hstored fun tree htree _ => (hbuilt htree).nodes_le_cap).mp hload
  obtain ⟨rfl, -⟩ := Prod.mk.inj hresult
  have htwins := twins_restored hstored
  refine ⟨⟨stored, hstored, rfl⟩, sound_load hload, h.dims_eq.trans htwins.dims_eq.symm, ?_, ?_,
    ?_, ?_, ?_, ?_⟩
  · exact htwins.dims_eq.symm ▸ h.dims_ne_zero
  · exact htwins.dims_eq.symm ▸ h.dims_le
  · exact htwins.options_eq.symm ▸ h.valid
  · exact htwins.length_eq.symm ▸ h.slots_le
  · exact htwins.length_eq.symm ▸ htwins.counter_eq.symm ▸ h.digits
  · intro slot plot hplot
    obtain ⟨tree, htree, rfl⟩ := plot?_restored.mp hplot
    exact htwins.options_eq.symm ▸ hbuilt (List.mem_of_getElem? htree)

/-- What is kept of a forest is enough to write it. -/
theorem Kept.writable (h : Kept source forest) : forest.Writable source := by
  induction h with
  | empty hempty => exact .empty hempty
  | @call source forest call _ ih =>
    refine perform_induction (motive := fun forest => forest.Writable source) ?_ ?_ call ih
    · exact fun forest index final hforest hinsert => hforest.insert hinsert
    · exact fun forest index hforest => hforest.remove index
  | grow _ hext ih => exact ih.grown hext
  | load _ hsave hload ih => exact (ih.restored hsave hload).2

/-- However a forest was kept, it can be asked over its source. -/
theorem Kept.serves (h : Kept source forest) (hfinite : source.Finite) :
    forest.Serves source := by
  induction h with
  | empty hempty => exact .empty hempty
  | @call source forest call _ ih =>
    refine perform_induction (motive := fun forest => forest.Serves source) ?_ ?_ call (ih hfinite)
    · exact fun forest index final hforest hinsert => hforest.insert hfinite hinsert
    · exact fun forest index hforest => hforest.remove index
  | grow _ hext ih => exact (ih (hext.finite hfinite)).grown hext
  | load hkept hsave hload ih =>
    obtain ⟨⟨stored, hstored, rfl⟩, -⟩ := hkept.writable.restored hsave hload
    exact (ih hfinite).restored hstored hfinite (sound_load hload)

end Forest

namespace Index

/-- The indexes that are asked, each with the points that count in it: a tree with all points of its
source, or a forest with those alive. All coordinates are finite, and a box known beforehand covers
the points. -/
inductive Ready [Storable N] : Index N D → List Nat → Prop
  | tree {source : Source N} {options tree} (metric : Metric N D) :
      Tree.ofSource source options = .ok tree → source.Finite → source.Covered →
      Ready (ofTree tree source metric) (List.range source.size)
  | forest {source : Source N} {forest : Forest N D} {index} :
      Forest.Kept source forest → source.Finite → forest.toIndex source = .ok index →
      Ready index ((List.range source.size).filter (forest.contains ·))

variable [LawfulCoordinate N] [Storable N] {index : Index N D} {alive : List Nat}

omit [LawfulCoordinate N] in
/-- No point counts twice. -/
theorem Ready.nodup (h : index.Ready alive) : alive.Nodup := by
  cases h with
  | tree => exact List.nodup_range
  | forest => exact List.nodup_range.filter _

/-- What is ready to be asked keeps an index that is meant, and has its points. -/
theorem Ready.exists_meant (h : index.Ready alive) :
    ∃ meant : Index N D, index = meant.stored ∧ meant.Meant ∧ meant.points.Perm alive := by
  cases h with
  | @tree source options tree metric htree hfinite hcovered =>
    obtain ⟨hwords, hbuilt⟩ := Tree.ofSource_eq_ok htree
    obtain ⟨meant, hstored, hmeant⟩ : ∃ meant : Index N D,
        ofTree tree source metric = meant.stored ∧ meant.Meant := by
      refine Index.exists_meant hbuilt.dims_eq fun part hpart => ?_
      obtain rfl := List.mem_singleton.mp hpart
      refine hbuilt.exists_meant (fun i hi => hfinite i (List.mem_range.mp hi))
        (fun box hbox i hi => hcovered box hbox i (List.mem_range.mp hi)) List.nodup_range ?_
      exact fun i hi => (List.mem_range.mp hi).le.trans hwords
    refine ⟨meant, hstored, hmeant, ?_⟩
    rw [← points_stored, ← hstored]
    simpa [points, ofTree] using hbuilt.order_perm
  | forest hkept hfinite hindex =>
    have hserves := hkept.serves hfinite
    obtain rfl := Except.ok.inj (hserves.toIndex_eq.symm.trans hindex)
    obtain ⟨meant, hstored, hmeant⟩ := hserves.exists_meant (D := D)
    refine ⟨meant, hstored, hmeant, ?_⟩
    rw [← points_stored, ← hstored, points, Forest.points_parts]
    exact hserves.live_perm

/-- The points of the trees that count are those of the index. -/
theorem Ready.points_perm (h : index.Ready alive) : index.points.Perm alive := by
  obtain ⟨meant, rfl, -, hperm⟩ := h.exists_meant
  rwa [points_stored]

/-- No tree is overfull over a source of no more points than a word can count. -/
theorem Ready.not_overfull (h : index.Ready alive) (hwords : index.source.size ≤ maxWord32) :
    ¬ index.Overfull := by
  cases h with
  | tree metric htree _ _ =>
    obtain ⟨-, hbuilt⟩ := Tree.ofSource_eq_ok htree
    rintro ⟨part, hpart, hover⟩
    obtain rfl := List.mem_singleton.mp hpart
    rw [hbuilt.size_eq, List.length_range] at hover
    exact absurd hwords (Nat.not_le.mpr hover)
  | forest hkept hfinite hindex =>
    have hserves := hkept.serves hfinite
    obtain rfl := Except.ok.inj (hserves.toIndex_eq.symm.trans hindex)
    exact hserves.not_overfull hwords

end Index

end Proximity
