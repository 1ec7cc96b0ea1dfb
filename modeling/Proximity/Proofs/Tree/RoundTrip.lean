import Mathlib
import Proximity.Proofs.Exactness
import Proximity.Proofs.Tree.Nodes
import Proximity.Proofs.Tree.Stepwise

/-!
# Built trees are read back

A built tree fits the format, so it is read back from its bytes, and the loops that build, write
and read it leave the same table. There is one exception: a box known beforehand that adds an empty
leaf can bring the nodes to one more than twice the points. Such a tree is written, but refused
when it is read.
-/

namespace Proximity

variable {N : Type} [Coordinate N]

/-- Whether both ends of every side of a box are ordered, and the right way around. -/
def Box.Upright (box : Box N) : Prop := ∀ side ∈ box.sides, side.low ≤ side.high

namespace Source

variable {source : Source N}

/-- Whether the box known beforehand, if there is one, holds all coordinates that are ordered. -/
def Enclosed (source : Source N) : Prop :=
  ∀ box, source.bounds = some box → box.Encloses source (List.range source.size)

/-- Whether a tree with some box gets more nodes than twice its points: there is one point in each
of its leaves, and the box adds one that is empty. -/
def Overgrows (source : Source N) (leafSize : Nat) (box : Box N) : Prop :=
  leafSize = 1 ∧ 2 ≤ source.size ∧ source.Lopsided box (List.range source.size)

/-- A box that covers some points encloses them. -/
theorem encloses_of_contains {box : Box N} {points : List Nat}
    (hcomplete : ∀ index ∈ points, source.Complete index)
    (hcover : ∀ index ∈ points, box.contains (source.coordinates index) = true) :
    box.Encloses source points := by
  intro index hindex axis side v hside hv _
  obtain ⟨hlength, hholds⟩ := (Box.contains_iff _ _).mp (hcover index hindex)
  rw [length_coordinates (hcomplete index hindex)] at hlength
  have haxis : axis < source.dims := hlength ▸ (List.getElem?_eq_some_iff.mp hside).1
  refine hholds axis side v hside ?_
  rw [getElem?_coordinates (hcomplete index hindex) haxis]
  exact hv

/-- A box that covers the points of a source encloses them. -/
theorem Covered.enclosed (h : source.Covered)
    (hcomplete : ∀ index < source.size, source.Complete index) : source.Enclosed := by
  intro box hbox
  refine encloses_of_contains (fun index hindex => ?_) fun index hindex => ?_
  · exact hcomplete index (List.mem_range.mp hindex)
  · exact h box hbox index (List.mem_range.mp hindex)

end Source

section

variable [LawfulCoordinate N] {source : Source N}

/-- The nodes of a subtree fit the format. -/
theorem Grows.fits {leafSize first size : Nat} {box : Box N} {points order : List Nat}
    {node : Node N} (h : Grows source leafSize first box points node order)
    (hdims : 0 < source.dims) (hbox : box.dims = source.dims)
    (hsize : first + points.length ≤ size) : node.Fits source.dims size := by
  induction h with
  | leaf _ => exact ⟨Nat.le_add_right _ _, hsize⟩
  | branch _ hcut hlower hupper _ _ ihl ihr =>
    have hlength := (Source.cut_perm hcut).length_eq
    rw [List.length_append] at hlength
    refine ⟨Source.cut_axis_lt hdims hbox hcut, ?_, ?_⟩
    · exact ihl (Source.boxAround_eq_ok hlower).1 (by omega)
    · exact ihr (Source.boxAround_eq_ok hupper).1 (by omega)

end

namespace Tree

namespace Built

variable [LawfulCoordinate N] {source : Source N} {options : BuildOptions} {points : List Nat}
variable {bounds : Option (Box N)} {tree : Tree N}

/-- A built tree fits the format if no side of its box is crossed. -/
theorem fits_of_uncrossed (h : Built source options points bounds tree) {sourceSize : Nat}
    (hinside : ∀ index ∈ points, index < sourceSize) (hsize : points.length ≤ sourceSize)
    (hsource : sourceSize ≤ maxWord32)
    (huncrossed : ∀ side ∈ tree.box.sides, ¬ side.high < side.low) : tree.Fits sourceSize where
  dims_ne_zero := h.dims_eq ▸ h.dims_ne_zero
  dims_le := h.dims_eq ▸ h.dims_le
  leafSize_ne_zero := h.leafSize_eq ▸ h.leafSize_ne_zero
  leafSize_le := h.leafSize_eq ▸ h.leafSize_le
  size_ne_zero := by
    rw [h.size_eq, Ne, List.length_eq_zero_iff]
    exact h.points_ne_nil
  size_le := h.size_eq ▸ hsize
  sourceSize_le := hsource
  nodes_le := h.nodes_le
  box_dims := h.box_dims.trans h.dims_eq.symm
  uncrossed := huncrossed
  inside := by
    intro index hindex
    rw [← Array.mem_toList_iff] at hindex
    exact hinside index (h.order_perm.mem_iff.mp hindex)
  root := by
    rw [h.dims_eq, h.size_eq]
    exact (h.grows_root (hsize.trans hsource)).fits (Nat.pos_of_ne_zero h.dims_ne_zero) h.box_dims
      (Nat.zero_add _).le

/-- A built tree fits the format. -/
theorem fits (h : Built source options points bounds tree) {sourceSize : Nat}
    (hinside : ∀ index ∈ points, index < sourceSize) (hsize : points.length ≤ sourceSize)
    (hsource : sourceSize ≤ maxWord32) (hupright : tree.box.Upright) : tree.Fits sourceSize :=
  h.fits_of_uncrossed hinside hsize hsource fun side hside => Comparison.not_lt (hupright side hside)

/-- The box of a built tree encloses its points if the one known beforehand does. -/
theorem encloses (h : Built source options points bounds tree)
    (hbounds : ∀ box, bounds = some box → box.Encloses source points) :
    tree.box.Encloses source points := by
  rcases h.box with ⟨-, htight⟩ | ⟨hgiven, -⟩
  · exact Source.boxAround_encloses htight
  · exact hbounds tree.box hgiven

/-- A box around points that have an ordered coordinate on every axis is upright. -/
theorem upright (h : Built source options points bounds tree)
    (hbounds : ∀ box, bounds = some box → box.Encloses source points)
    (hordered : ∀ axis < source.dims, ∃ index ∈ points, ∃ v,
      source.coordinate? index axis = some v ∧ v ≤ v) : tree.box.Upright := by
  intro side hside
  obtain ⟨axis, haxis, hside⟩ := List.getElem_of_mem hside
  have haxis' : axis < source.dims := h.box_dims ▸ haxis
  obtain ⟨index, hindex, v, hv, hself⟩ := hordered axis haxis'
  obtain ⟨hlow, hhigh⟩ := h.encloses hbounds index hindex axis side v
    (List.getElem?_eq_some_iff.mpr ⟨haxis, hside⟩) hv hself
  exact Comparison.trans hlow hhigh

/-- A tree over all points has one node more than twice its points if its box overgrows, and no
more than twice otherwise. -/
theorem nodes_of_overgrows (h : Built source options (List.range source.size) source.bounds tree)
    (hbounds : source.Enclosed) :
    (source.Overgrows options.leafSize tree.box → tree.nodes = 2 * tree.size + 1) ∧
      (¬ source.Overgrows options.leafSize tree.box → tree.nodes ≤ 2 * tree.size) := by
  obtain ⟨node, hgrows, hnodes⟩ := h.exists_grows
  have hcount := hgrows.count_of_encloses (h.encloses hbounds) h.leafSize_ne_zero h.points_ne_nil
  rw [List.length_range] at hcount
  rw [h.size_eq, List.length_range, hnodes]
  exact hcount

end Built

/-- Whether the loops that build, write and read a tree go through the same table, but for the cap
on its cells: the first fills it, the second writes the bytes of the root from it, and the third
fills it again from these bytes, whatever follows them. -/
structure Loops [Storable N] (source : Source N) (options : BuildOptions) (tree : Tree N)
    (chunkLength : Nat) (table : Table (Cell N)) : Prop where
  size_eq : table.size = tree.nodes
  build : ∃ start, (Table.empty chunkLength options.maxNodes).push .vacant = .ok start ∧
    steps (buildStep source options) tree.nodes
      ⟨start, List.range source.size, [⟨0, 0, source.size, tree.box⟩]⟩ =
      .ok ⟨table, tree.order.toList, []⟩
  write : steps (writeStep table) tree.nodes ⟨[], [0]⟩ = some ⟨tree.root.encode, []⟩
  read : ∃ start, (Table.empty chunkLength none).push .vacant = .ok start ∧
    ∀ (rest : List UInt8) (ending : Ending),
      steps (readStep tree.dims tree.size tree.nodes) tree.nodes ⟨start, [0]⟩
        ⟨tree.root.encode ++ rest, ending⟩ =
        .ok (⟨{ table with cap := none }, []⟩, ⟨rest, ending⟩)

variable [LawfulCoordinate N] [Storable N] {source : Source N} {options : BuildOptions}
variable {tree : Tree N}

theorem Built.loops (h : Built source options (List.range source.size) source.bounds tree)
    {sourceSize : Nat} (hfits : tree.Fits sourceSize) {chunkLength : Nat}
    (hchunk : 0 < chunkLength) : ∃ table, Loops source options tree chunkLength table := by
  obtain ⟨start, table, hstart, htable, hbuild⟩ := h.steps_buildStep chunkLength
  rw [List.length_range] at hbuild
  obtain ⟨other, hother, htable⟩ := Outcome.bind_eq_ok.mp htable
  obtain rfl := Except.ok.inj (hstart.symm.trans hother)
  obtain ⟨hsize, hcap⟩ := Table.size_push hstart
  have hsize : start.size = 1 := hsize
  have htableSize := (Node.size_layOut htable).1
  have hsound := (Table.sound_empty hchunk options.maxNodes).push hstart
  have hstands : tree.root.Stands table 0 :=
    Node.stands_of_layOut htable hsound (by omega) fun _ _ _ => rfl
  have hsizes : table.size = tree.nodes := by
    rw [nodes]
    omega
  -- The reader begins with the same table but for the cap.
  have hbegin := Table.push_uncapped hstart
  have hlaid := Node.layOut_uncapped htable
  generalize hbare : ({ start with cap := none } : Table (Cell N)) = bare at hbegin hlaid
  have hbareSize : bare.size = 1 ∧ bare.cap = none := by
    subst hbare
    exact ⟨hsize, rfl⟩
  refine ⟨table, hsizes, ⟨start, hstart, hbuild⟩, steps_writeStep hstands [] [], bare, hbegin, ?_⟩
  intro rest ending
  obtain ⟨filled, hfilled, -, hsteps⟩ :=
    steps_readStep hfits.read_root hbareSize.1 hbareSize.2 hfits.nodes_le []
  obtain rfl := Except.ok.inj (hfilled.symm.trans hlaid)
  exact hsteps

/-- A tree over all points of a source is read back from its bytes, whatever follows them, and its
table is left by the loops that build, write and read it. There is one exception, which takes a box
known beforehand: if that overgrows, the bytes are refused. -/
theorem read_ofSource (h : ofSource source options = .ok tree) (hbounds : source.Enclosed) :
    ((∀ axis < source.dims, ∃ index < source.size, ∃ v,
        source.coordinate? index axis = some v ∧ v ≤ v) → tree.box.Upright) ∧
    (source.bounds = none → ¬ source.Overgrows options.leafSize tree.box) ∧
    (tree.box.Upright →
      (∀ (rest : List UInt8) (ending : Ending),
        (¬ source.Overgrows options.leafSize tree.box →
          read ⟨tree.encode source.size ++ rest, ending⟩ =
            .ok ((tree, source.size), ⟨rest, ending⟩)) ∧
        (source.Overgrows options.leafSize tree.box →
          (read : Reader (Tree N × Nat)) ⟨tree.encode source.size ++ rest, ending⟩ =
            .error (.impossibleNodeCount (2 * tree.size + 1) tree.size))) ∧
      ∀ chunkLength, 0 < chunkLength →
        ∃ table, Loops source options tree chunkLength table) := by
  obtain ⟨hsize, hbuilt⟩ := ofSource_eq_ok h
  obtain ⟨hover, hunder⟩ := hbuilt.nodes_of_overgrows hbounds
  refine ⟨?_, ?_, ?_⟩
  · intro hordered
    refine hbuilt.upright hbounds fun axis haxis => ?_
    obtain ⟨index, hindex, v, hv⟩ := hordered axis haxis
    exact ⟨index, List.mem_range.mpr hindex, v, hv⟩
  · rintro hnone ⟨hone, htwo, hlopsided⟩
    rcases hbuilt.box with ⟨-, htight⟩ | ⟨hsome, -⟩
    · obtain ⟨node, hgrows, -⟩ := hbuilt.grows
      refine hgrows.not_lopsided htight ?_ hlopsided
      rw [List.length_range]
      omega
    · nomatch hnone.symm.trans hsome
  · intro hupright
    have hfits : tree.Fits source.size :=
      hbuilt.fits (fun index => List.mem_range.mp) (List.length_range).le hsize hupright
    refine ⟨fun rest ending => ⟨fun hnot => hfits.read_encode (hunder hnot), fun hgrown => ?_⟩,
      fun chunkLength hchunk => hbuilt.loops hfits hchunk⟩
    have hnodes := hover hgrown
    rw [← hnodes]
    exact hfits.read_encode_of_lt (by omega)

/-- The tree over four bytes is read back, and the byte after it is left. -/
theorem read_byteTree : ofSource byteSource ⟨2, none⟩ = .ok byteTree ∧ byteSource.Enclosed ∧
    byteTree.box.Upright ∧ read ⟨byteTree.encode byteSource.size ++ [9], .closed⟩ =
      .ok ((byteTree, byteSource.size), ⟨[9], .closed⟩) := by
  have htree : ofSource byteSource ⟨2, none⟩ = .ok byteTree := by decide +kernel
  have henclosed : byteSource.Enclosed :=
    covered_byteSource.enclosed fun index hindex => (finite_byteSource index hindex).complete
  have hupright : byteTree.box.Upright := by
    intro side hside
    obtain rfl := List.mem_singleton.mp hside
    decide
  have hnot : ¬ byteSource.Overgrows 2 byteTree.box := fun hgrown => nomatch hgrown.1
  obtain ⟨-, -, hread⟩ := read_ofSource htree henclosed
  exact ⟨htree, henclosed, hupright, ((hread hupright).1 [9] .closed).1 hnot⟩

/-- Two points that coincide below and above all finite numbers, and a box that covers them. -/
def skewSource : Source Binary64 :=
  { Source.ofRows #[#[.negInfinity, .infinity], #[.negInfinity, .infinity]] with
    bounds := some ⟨[⟨.negInfinity, .negInfinity⟩, ⟨0, .infinity⟩]⟩ }

/-- The tree over the two points with at most one in a leaf; its first leaf is empty. -/
def skewTree : Tree Binary64 :=
  ⟨2, 1, #[0, 1], ⟨[⟨.negInfinity, .negInfinity⟩, ⟨0, .infinity⟩]⟩,
    .branch 1 .infinity (.leaf 0 0) (.branch 0 .negInfinity (.leaf 0 1) (.leaf 1 2))⟩

/-- Not every tree over covered points is read back. -/
theorem read_skewTree : ofSource skewSource ⟨1, none⟩ = .ok skewTree ∧ skewSource.Covered ∧
    skewTree.box.Upright ∧ (read : Reader (Tree Binary64 × Nat))
      ⟨skewTree.encode skewSource.size, .closed⟩ = .error (.impossibleNodeCount 5 2) := by
  refine ⟨by decide +kernel, ?_, ?_, by decide +kernel⟩
  · intro box hbox index hindex
    obtain rfl := Option.some.inj hbox
    have hindex : index < 2 := hindex
    interval_cases index <;> decide +kernel
  · intro side hside
    rcases List.mem_pair.mp hside with rfl | rfl <;> decide

end Tree

end Proximity
