import Mathlib
import Proximity.Proofs.Forest.Saving
import Proximity.Proofs.Tree.Progress

/-!
# Compaction under a cap

Saving builds every tree with removed points anew over those alive, under the cap that the forest
has. The cuts of a smaller box fall elsewhere, so fewer points can take more nodes. A forest over
finite points is therefore saved exactly if each such tree, built without a cap, has no more nodes
than that, which is so whenever there is room for twice the points alive.
-/

namespace Proximity

variable {N D : Type} [Coordinate N] [LawfulCoordinate N]

/-- Bytes that can be had go before those of the rest, if there are any. -/
theorem Emission.toBytes_andThen_ok {first : List UInt8} {rest : Emission} :
    (andThen (.ok first) rest).toBytes = (first ++ ·) <$> rest.toBytes := by
  obtain ⟨bytes, failure⟩ := rest
  cases failure <;> rfl

namespace Tree

variable {source : Source N} {options : BuildOptions} {points : List Nat} {tree : Tree N}

omit [LawfulCoordinate N] in
/-- A cap matters only for whether a tree is built, not for what it is. -/
theorem Built.build_of_nodes_le {other : BuildOptions} (h : Built source options points none tree)
    (hother : Buildable source other points none) (hleaf : other.leafSize = options.leafSize)
    (hroom : tree.nodes ≤ other.limit) : build source other points none = .ok tree := by
  have hbox : RootBox source points none tree.box := by
    rcases h.box with htight | ⟨hsome, -⟩
    · exact .inl htight
    · nomatch hsome
  obtain ⟨node, hgrows, hroot⟩ := h.grows
  have hcount : node.count ≤ other.limit := by
    rwa [nodes, hroot, Node.count_stored] at hroom
  rw [hother.build_of_grows hbox (hleaf.symm ▸ hgrows) hcount, hleaf, ← h.dims_eq, ← h.leafSize_eq,
    ← hroot]

omit [LawfulCoordinate N] in
/-- A tree is built under a cap exactly if it is built without one and has no more nodes. -/
theorem Buildable.build_iff_uncapped (h : Buildable source options points none) :
    build source options points none = .ok tree ↔
      build source ⟨options.leafSize, none⟩ points none = .ok tree ∧
        ∀ cap, options.maxNodes = some cap → tree.nodes ≤ cap := by
  constructor
  · intro hbuild
    have hbuilt := build_eq_ok hbuild
    have huncapped : Buildable source ⟨options.leafSize, none⟩ points none :=
      ⟨h.valid, h.dims_ne_zero, h.dims_le, h.points_ne_nil, h.complete, h.covers⟩
    exact ⟨hbuilt.build_of_nodes_le huncapped rfl hbuilt.nodes_le,
      fun cap hcap => hbuilt.nodes_le_cap hcap⟩
  · rintro ⟨hbuild, hcap⟩
    have hbuilt := build_eq_ok hbuild
    refine hbuilt.build_of_nodes_le h rfl ?_
    unfold BuildOptions.limit
    cases hmax : options.maxNodes with
    | none => exact hbuilt.nodes_le
    | some cap => exact le_min hbuilt.nodes_le (hcap cap hmax)

/-- With one point to a leaf a tree over some of the points has no more nodes. -/
theorem BuiltBefore.two_mul_le (h : tree.BuiltBefore source options)
    (hleaf : options.leafSize = 1) :
    2 * tree.order.size ≤ options.limit + 1 := by
  obtain ⟨smaller, points, -, -, hbuilt⟩ := h
  have htight : smaller.boxAround points = .ok tree.box := by
    rcases hbuilt.box with ⟨-, htight⟩ | ⟨hsome, -⟩
    · exact htight
    · nomatch hsome
  obtain ⟨node, hgrows, hnodes⟩ := hbuilt.exists_grows
  have hcount := (hgrows.count_of_tight htight hbuilt.leafSize_ne_zero
    hbuilt.points_ne_nil).2.1 hleaf
  have hlimit : node.count ≤ options.limit := hnodes ▸ hbuilt.nodes_le_limit
  rw [← Array.length_toList, hbuilt.order_perm.length_eq]
  omega

end Tree

namespace Forest

variable {forest : Forest N D} {source : Source N} {slot : Nat} {plot : Plot N}

/-- Whether saving builds a plot anew. -/
def Compacted (forest : Forest N D) (slot : Nat) (plot : Plot N) : Prop :=
  forest.plot? slot = some plot ∧ plot.removed ≠ [] ∧ plot.livePoints ≠ []

/-- The points of a slot lie inside the source. -/
theorem Writable.inside (h : forest.Writable source) (hplot : forest.plot? slot = some plot) :
    ∀ index ∈ plot.livePoints, index < source.size := fun index hindex =>
  (h.built slot plot hplot).inside index (Plot.mem_livePoints.mp hindex).1

/-- A tree over the points alive in a slot is built as it should be. -/
theorem Writable.buildable (h : forest.Writable source)
    (hcomplete : ∀ index < source.size, source.Complete index)
    (hplot : forest.plot? slot = some plot) (hlive : plot.livePoints ≠ []) :
    Tree.Buildable source forest.options plot.livePoints none :=
  ⟨h.valid, h.dims_eq ▸ h.dims_ne_zero, h.dims_eq ▸ h.dims_le, hlive,
    fun index hindex => hcomplete index (h.inside hplot index hindex), nofun⟩

variable [Storable N]

omit [LawfulCoordinate N] in
/-- A forest is saved exactly if all trees can be built that are built anew. -/
theorem save_ok_iff : (∃ bytes, (forest.save source).toBytes = .ok bytes) ↔
    ∀ slot plot, forest.Compacted slot plot →
      ∃ tree, Tree.build source forest.options plot.livePoints none = .ok tree := by
  constructor
  · rintro ⟨bytes, hbytes⟩ slot plot ⟨hplot, hremoved, hlive⟩
    obtain ⟨stored, hstored, -⟩ := save_eq_ok.mp hbytes
    obtain ⟨hlt, hplot⟩ := List.getElem?_eq_some_iff.mp (plot?_eq_some.mp hplot)
    have hstores := hstored.get hlt (hstored.length_eq ▸ hlt)
    rw [List.get_eq_getElem, hplot] at hstores
    generalize stored.get _ = one at hstores
    cases hstores with
    | whole hnil => exact absurd hnil hremoved
    | dead _ hnil => exact absurd hnil hlive
    | rebuilt _ _ hbuild => exact ⟨_, hbuild⟩
  · intro hall
    have hone : ∀ slot ∈ forest.slots, ∃ one, Stores forest.options source slot one := by
      intro slot hslot
      obtain ⟨place, hplace⟩ := List.getElem?_of_mem hslot
      cases slot with
      | none => exact ⟨none, .vacant⟩
      | some plot =>
        by_cases hremoved : plot.removed = []
        · exact ⟨_, .whole hremoved⟩
        by_cases hlive : plot.livePoints = []
        · exact ⟨none, .dead hremoved hlive⟩
        obtain ⟨tree, hbuild⟩ := hall place plot ⟨plot?_eq_some.mpr hplace, hremoved, hlive⟩
        exact ⟨some tree, .rebuilt hremoved hlive hbuild⟩
    obtain ⟨stored, hstored⟩ := Outcome.exists_forall₂ hone
    exact ⟨_, save_eq_ok.mpr ⟨stored, hstored, rfl⟩⟩

omit [LawfulCoordinate N] in
/-- If every slot is written or fails with one cause, so does the whole. -/
private theorem toBytes_slots {cause : Error} {slots : List (Option (Plot N))}
    (h : ∀ slot ∈ slots, (∃ part, encodeSlot forest.options source slot = .ok part) ∨
      encodeSlot forest.options source slot = .error cause) :
    (∃ bytes, (slots.foldr
        (fun plot rest => Emission.andThen (encodeSlot forest.options source plot) rest)
        (.ofBytes [])).toBytes = .ok bytes) ∨
      (slots.foldr
        (fun plot rest => Emission.andThen (encodeSlot forest.options source plot) rest)
        (.ofBytes [])).toBytes = .error cause := by
  induction slots with
  | nil => exact .inl ⟨[], rfl⟩
  | cons slot slots ih =>
    obtain ⟨hslot, hslots⟩ := List.forall_mem_cons.mp h
    rw [List.foldr_cons]
    rcases hslot with ⟨part, hpart⟩ | hfail
    · rcases ih hslots with ⟨bytes, hbytes⟩ | hfail
      · exact .inl ⟨_, Emission.toBytes_andThen_eq_ok.mpr ⟨part, bytes, hpart, hbytes, rfl⟩⟩
      · right
        rw [hpart]
        exact Emission.toBytes_andThen_ok.trans (by rw [hfail]; rfl)
    · right
      rw [hfail]
      rfl

/-- What a forest over complete points fails with when it is saved. -/
theorem Writable.save_ends (h : forest.Writable source)
    (hcomplete : ∀ index < source.size, source.Complete index) :
    (∃ bytes, (forest.save source).toBytes = .ok bytes) ∨
      (forest.save source).toBytes = .error (.nodesExhausted forest.options.limit) := by
  have hslots (slot) (hslot : slot ∈ forest.slots) :
      (∃ part, encodeSlot forest.options source slot = .ok part) ∨
        encodeSlot forest.options source slot = .error (.nodesExhausted forest.options.limit) := by
    obtain ⟨place, hplace⟩ := List.getElem?_of_mem hslot
    cases slot with
    | none => exact .inl ⟨_, rfl⟩
    | some plot =>
    rw [encodeSlot]
    by_cases hremoved : plot.removed.isEmpty = true
    · exact .inl ⟨_, if_pos hremoved⟩
    rw [if_neg hremoved]
    by_cases hlive : plot.livePoints.isEmpty = true
    · exact .inl ⟨_, if_pos hlive⟩
    rw [if_neg hlive]
    rcases (h.buildable hcomplete (plot?_eq_some.mpr hplace)
        (mt List.isEmpty_iff.mpr hlive)).ends with ⟨tree, htree⟩ | hfull
    · rw [htree]
      exact .inl ⟨_, rfl⟩
    · rw [hfull]
      exact .inr rfl
  rcases toBytes_slots hslots with ⟨bytes, hbytes⟩ | hfail
  · exact .inl ⟨_, Emission.toBytes_andThen_eq_ok.mpr ⟨_, bytes, rfl, hbytes, rfl⟩⟩
  · right
    rw [save, Emission.toBytes_andThen_ok, hfail]
    rfl

/-- However a forest came about over finite points, it is saved exactly if each tree that is built
anew has, without a cap, no more nodes than the cap of the forest, and otherwise its nodes are
exhausted. It is saved if there is one point to a leaf, or room for twice the points alive. -/
theorem History.save_iff (h : History source forest) (hfinite : source.Finite) :
    forest.requireView source = .ok () ∧
    ((∃ bytes, (forest.save source).toBytes = .ok bytes) ↔
      ∀ slot plot, forest.Compacted slot plot →
        ∃ tree, Tree.build source ⟨forest.options.leafSize, none⟩ plot.livePoints none =
          .ok tree ∧ ∀ cap, forest.options.maxNodes = some cap → tree.nodes ≤ cap) ∧
    ((∃ bytes, (forest.save source).toBytes = .ok bytes) ∨
      (forest.save source).toBytes = .error (.nodesExhausted forest.options.limit)) ∧
    ((∀ slot plot, forest.Compacted slot plot → forest.options.leafSize = 1 ∨
        2 * plot.livePoints.length ≤ forest.options.limit + 1) →
      ∃ bytes, (forest.save source).toBytes = .ok bytes) := by
  have hwritable := h.writable
  have hcomplete (index) (hindex : index < source.size) : source.Complete index :=
    (hfinite index hindex).complete
  refine ⟨(h.serves hfinite).requireView_eq, ?_, hwritable.save_ends hcomplete, ?_⟩
  · rw [save_ok_iff]
    refine forall₂_congr fun slot plot => forall_congr' ?_
    rintro ⟨hplot, -, hlive⟩
    exact exists_congr fun tree => (hwritable.buildable hcomplete hplot hlive).build_iff_uncapped
  · intro hroom
    refine save_ok_iff.mpr fun slot plot hcompacted => ?_
    have ⟨hplot, _, hlive⟩ := hcompacted
    have hnone : source.NoneAbove plot.livePoints := Source.noneAbove_of_finite fun index hindex =>
      hfinite index (hwritable.inside hplot index hindex)
    refine (hwritable.buildable hcomplete hplot hlive).exists_build hnone ?_
    rcases hroom slot plot hcompacted with hleaf | hroom
    · have hsome : plot.livePoints.length ≤ plot.tree.order.size :=
        Array.length_toList ▸ List.length_filter_le plot.isLive plot.tree.order.toList
      have hfew := (hwritable.built slot plot hplot).two_mul_le hleaf
      omega
    · exact hroom

/-- Eight bytes of which seven lie closer together. -/
def crowdedSource : Source UInt8 :=
  .ofRows #[#[0], #[50], #[61], #[62], #[63], #[64], #[65], #[127]]

/-- The forest over the eight bytes after all were inserted and the last was removed. The middle
parts all eight of them evenly. -/
def crowdedForest (cap : Nat) : Forest UInt8 Binary64 :=
  ⟨1, ⟨4, some cap⟩, .squaredEuclidean,
    [none, none, none, some ⟨⟨1, 4, #[3, 1, 0, 2, 5, 4, 7, 6], ⟨[⟨0, 127⟩]⟩,
      .branch 0 63 (.leaf 0 4) (.leaf 4 8)⟩, [7]⟩],
    8, ⟨#[some 3, some 3, some 3, some 3, some 3, some 3, some 3, none]⟩, 7⟩

omit [LawfulCoordinate N] [Storable N] in
/-- No call changes the metric. -/
private theorem perform_metric (view : Source N) (forest : Forest N D) (call : Call) :
    (forest.perform view call).metric = forest.metric := by
  refine perform_induction (motive := fun final => final.metric = forest.metric) ?_ ?_ call rfl
  · intro other index final hother hinsert
    obtain ⟨tree, -, rfl⟩ := insert_eq_ok hinsert
    exact hother
  · intro other index hother
    rw [← hother, remove]
    split
    · rfl
    · split <;> rfl

/-- Either cap lets all eight points be inserted, so the forest comes from calls alone. -/
theorem history_crowdedForest {cap : Nat} (hcap : cap = 3 ∨ cap = 7) :
    History crowdedSource (crowdedForest cap) := by
  have hempty : Forest.empty crowdedSource.dims ⟨4, some cap⟩
      (.squaredEuclidean : Metric UInt8 Binary64) =
      .ok ⟨1, ⟨4, some cap⟩, .squaredEuclidean, [], 0, .empty, 0⟩ := rfl
  have hhistory := (History.empty hempty).call (.insertRange 8 0) |>.call (.remove 7)
  have hmetric := (perform_metric crowdedSource _ (.remove 7)).trans
    (perform_metric crowdedSource
      ⟨1, ⟨4, some cap⟩, (.squaredEuclidean : Metric UInt8 Binary64), [], 0, .empty, 0⟩
      (.insertRange 8 0))
  -- All fields but the metric can be compared.
  have hfields : ∀ final : Forest UInt8 Binary64, final.metric = .squaredEuclidean →
      final.dims = 1 → final.options = ⟨4, some cap⟩ → final.slots = (crowdedForest cap).slots →
      final.counter = 8 → final.directory = (crowdedForest cap).directory → final.size = 7 →
      final = crowdedForest cap := by
    rintro ⟨⟩ rfl rfl rfl rfl rfl rfl rfl
    rfl
  rw [← hfields _ hmetric (by rcases hcap with rfl | rfl <;> decide +kernel)
    (by rcases hcap with rfl | rfl <;> decide +kernel)
    (by rcases hcap with rfl | rfl <;> decide +kernel)
    (by rcases hcap with rfl | rfl <;> decide +kernel)
    (by rcases hcap with rfl | rfl <;> decide +kernel)
    (by rcases hcap with rfl | rfl <;> decide +kernel)]
  exact hhistory

theorem finite_crowdedSource : crowdedSource.Finite := by
  intro index hindex axis haxis
  obtain rfl : axis = 0 := Nat.lt_one_iff.mp haxis
  have hindex : index < 8 := hindex
  interval_cases index <;> exact ⟨_, rfl, by decide⟩

/-- With a cap of seven nodes the forest is saved, as its seven points alive take as many. -/
theorem save_crowdedForest :
    History crowdedSource (crowdedForest 7) ∧ crowdedSource.Finite ∧
      ∃ bytes, ((crowdedForest 7).save crowdedSource).toBytes = .ok bytes := by
  have hhistory := history_crowdedForest (.inr rfl)
  refine ⟨hhistory, finite_crowdedSource,
    (hhistory.save_iff finite_crowdedSource).2.1.mpr ?_⟩
  rintro slot plot ⟨hplot, -, -⟩
  have hlt := (List.getElem?_eq_some_iff.mp (plot?_eq_some.mp hplot)).1
  have hlt : slot < 4 := hlt
  interval_cases slot
  · nomatch hplot
  · nomatch hplot
  · nomatch hplot
  obtain rfl := Option.some.inj hplot
  refine ⟨⟨1, 4, #[0, 1, 2, 3, 6, 4, 5], ⟨[⟨0, 65⟩]⟩, .branch 0 32 (.leaf 0 1)
    (.branch 0 57 (.leaf 1 2) (.branch 0 63 (.leaf 2 4) (.leaf 4 7)))⟩, ?_, ?_⟩
  · decide +kernel
  · intro cap hcap
    obtain rfl := Option.some.inj hcap
    decide

/-- With a cap of three nodes, as many as the tree of its eight points has, the forest cannot be
saved once one of them is removed. -/
theorem not_saved_crowded :
    History crowdedSource (crowdedForest 3) ∧ crowdedSource.Finite ∧
      (∃ plot, (crowdedForest 3).Compacted 3 plot ∧ plot.tree.nodes = 3) ∧
      ((crowdedForest 3).save crowdedSource).toBytes = .error (.nodesExhausted 3) ∧
      ¬ ∃ bytes, ((crowdedForest 3).save crowdedSource).toBytes = .ok bytes := by
  have hfail : ((crowdedForest 3).save crowdedSource).toBytes = .error (.nodesExhausted 3) := by
    decide +kernel
  refine ⟨history_crowdedForest (.inl rfl), finite_crowdedSource,
    ⟨_, ⟨rfl, by decide, by decide⟩, rfl⟩, hfail, ?_⟩
  rintro ⟨bytes, hbytes⟩
  nomatch hfail.symm.trans hbytes

end Forest

end Proximity
