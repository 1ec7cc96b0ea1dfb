import Mathlib
import Proximity.Proofs.Tree.Shape
import Proximity.Tree.Region

/-!
# Regions of built trees

A region is found from the box of its tree and the splits on the way to it, and need not be tight,
while the tree was built with the tight box of the points below each branch. The two views meet in
the points: those below a branch lie on their sides of its split, and on both sides there are some.
So a split lies between the ends of its side in every region, and each part holds its own points.
-/

namespace Proximity

variable {N : Type}

namespace Box

variable [Coordinate N] {box : Box N} {axis : Nat} {f : Side N → Side N}

/-- A box with one side changed contains the points of which the changed side holds a coordinate. -/
theorem contains_adjust {point : List N} (h : box.contains point = true)
    (hside : ∀ side v, box.sides[axis]? = some side → point[axis]? = some v → side.Holds v →
      (f side).Holds v) : (box.adjust axis f).contains point = true := by
  obtain ⟨hlength, hholds⟩ := (contains_iff _ _).mp h
  refine (contains_iff _ _).mpr ⟨hlength.trans (List.length_modify ..).symm, ?_⟩
  intro i side v hi hv
  rw [adjust, List.getElem?_modify] at hi
  obtain ⟨old, hold, hchanged⟩ := Option.map_eq_some_iff.mp hi
  by_cases haxis : axis = i
  · subst haxis
    rw [if_pos rfl] at hchanged
    exact hchanged ▸ hside old v hold hv (hholds axis old v hold hv)
  · rw [if_neg haxis] at hchanged
    exact hchanged ▸ hholds i old v hold hv

/-- A box covers itself with one side changed if that side does not come to reach further. -/
theorem covers_adjust [LawfulCoordinate N] (hupright : ∀ side ∈ box.sides, side.low ≤ side.high)
    (hside : ∀ side, box.sides[axis]? = some side →
      side.low ≤ (f side).low ∧ (f side).high ≤ side.high) :
    box.covers (box.adjust axis f) = true := by
  refine (covers_iff _ _).mpr ⟨(List.length_modify ..).symm, ?_⟩
  intro i side inner hi hinner
  rw [adjust, List.getElem?_modify, hi] at hinner
  obtain rfl := Option.some.inj hinner
  by_cases haxis : axis = i
  · subst haxis
    dsimp only
    rw [if_pos rfl]
    exact hside side hi
  · dsimp only
    rw [if_neg haxis]
    have hle := hupright side (List.mem_of_getElem? hi)
    exact ⟨Comparison.left hle, Comparison.right hle⟩

end Box

namespace Node

variable {node : Node N} {order : Array Nat}

/-- Whether no leaf is empty, and each is a range of an arrangement. -/
def Stocked (order : Array Nat) (node : Node N) : Prop :=
  ∀ range ∈ node.leaves, range.1 < range.2 ∧ range.2 ≤ order.size

theorem stocked_branch {axis : Nat} {split : N} {left right : Node N} :
    (branch axis split left right).Stocked order ↔ left.Stocked order ∧ right.Stocked order :=
  List.forall_mem_append

/-- Below a node without empty leaves there are points. -/
theorem Stocked.exists_point (h : node.Stocked order) : ∃ index, index ∈ node.points order := by
  induction node with
  | leaf first last =>
    obtain ⟨hlt, hle⟩ := h _ (List.mem_singleton_self _)
    have hpos : 0 < (order.extract first last).toList.length := by
      rw [Array.length_toList, Array.size_extract]
      omega
    exact List.exists_mem_of_length_pos hpos
  | branch axis split left right ihl _ =>
    obtain ⟨index, hindex⟩ := ihl (stocked_branch.mp h).1
    exact ⟨index, List.mem_append_left _ hindex⟩

end Node

/-- One of the two ways down from a branch. -/
inductive Turn where
  | left
  | right
  deriving DecidableEq

namespace Region

/-- The region on one side of a branch. -/
def child? (region : Region N) : Turn → Option (Region N)
  | .left => region.left?
  | .right => region.right?

/-- The region that some turns lead to, one after the other. -/
def follow? : Region N → List Turn → Option (Region N)
  | region, [] => some region
  | region, turn :: path => (region.child? turn).bind fun child => child.follow? path

/-- The points in a leaf. -/
def listed? (tree : Tree N) (region : Region N) : Option (List Nat) :=
  region.range?.bind fun range => (tree.points range.1 range.2).toOption

/-- Whether some turns lead to a leaf that lists a point. -/
def LeadsTo (tree : Tree N) (region : Region N) (path : List Turn) (index : Nat) : Prop :=
  ∃ leaf listed, region.follow? path = some leaf ∧ leaf.listed? tree = some listed ∧ index ∈ listed

section Paths

variable {tree : Tree N} {region last : Region N} {path : List Turn} {turn : Turn} {index : Nat}

/-- The regions from a node on are those that turns lead to from there. -/
theorem mem_below_iff {node : Node N} {box : Box N} :
    region ∈ below node box ↔ ∃ path, follow? ⟨node, box⟩ path = some region := by
  induction node generalizing box with
  | leaf first last =>
    rw [below, List.mem_singleton]
    constructor
    · rintro rfl
      exact ⟨[], rfl⟩
    · rintro ⟨_ | ⟨_ | _, path⟩, hpath⟩
      · exact (Option.some.inj hpath).symm
      · nomatch hpath
      · nomatch hpath
  | branch axis split left right ihl ihr =>
    rw [below, List.mem_cons, List.mem_append, ihl, ihr]
    constructor
    · rintro (rfl | ⟨path, hpath⟩ | ⟨path, hpath⟩)
      · exact ⟨[], rfl⟩
      · exact ⟨.left :: path, hpath⟩
      · exact ⟨.right :: path, hpath⟩
    · rintro ⟨_ | ⟨_ | _, path⟩, hpath⟩
      · exact .inl (Option.some.inj hpath).symm
      · exact .inr (.inl ⟨path, hpath⟩)
      · exact .inr (.inr ⟨path, hpath⟩)

/-- The regions of a tree are those that turns lead to from its root. -/
theorem mem_all_iff : region ∈ all tree ↔ ∃ path, (ofTree tree).follow? path = some region :=
  mem_below_iff

/-- A leaf lists the points below it. -/
theorem listed?_eq_some {listed : List Nat} (h : region.listed? tree = some listed) :
    region.isLeaf = true ∧ listed = region.node.points tree.order := by
  obtain ⟨node, box⟩ := region
  cases node with
  | leaf first last =>
    rw [listed?, range?, Option.bind_some, Tree.points] at h
    split at h
    · exact ⟨rfl, (Option.some.inj h).symm⟩
    · nomatch h
  | branch axis split left right => nomatch h

/-- A leaf that is a range of the arrangement has a list. -/
theorem listed?_of_stocked (hleaf : region.isLeaf = true)
    (hstocked : region.node.Stocked tree.order) :
    region.listed? tree = some (region.node.points tree.order) := by
  obtain ⟨node, box⟩ := region
  cases node with
  | leaf first last =>
    obtain ⟨hlt, hle⟩ := hstocked _ (List.mem_singleton_self _)
    rw [listed?, range?, Option.bind_some, Tree.points, if_pos ⟨hlt.le, hle⟩]
    rfl
  | branch axis split left right => nomatch hleaf

/-- Below a child are some of the points below its parent, in their order. -/
theorem points_child? {child : Region N} (h : region.child? turn = some child)
    (order : Array Nat) : (child.node.points order).Sublist (region.node.points order) := by
  obtain ⟨node, box⟩ := region
  cases node with
  | leaf first last => cases turn <;> nomatch h
  | branch axis split left right =>
    cases turn with
    | left =>
      obtain rfl := Option.some.inj h
      exact List.sublist_append_left _ _
    | right =>
      obtain rfl := Option.some.inj h
      exact List.sublist_append_right _ _

/-- Below a region that turns lead to are some of the points below the first. -/
theorem points_follow? (h : region.follow? path = some last) (order : Array Nat) :
    (last.node.points order).Sublist (region.node.points order) := by
  induction path generalizing region with
  | nil =>
    obtain rfl := Option.some.inj h
    exact .refl _
  | cons turn path ih =>
    obtain ⟨child, hchild, hpath⟩ := Option.bind_eq_some_iff.mp h
    exact (ih hpath).trans (points_child? hchild order)

/-- A point that turns lead to is below the region they start from. -/
theorem LeadsTo.mem_points (h : region.LeadsTo tree path index) :
    index ∈ region.node.points tree.order := by
  obtain ⟨leaf, listed, hpath, hlisted, hindex⟩ := h
  obtain ⟨-, rfl⟩ := listed?_eq_some hlisted
  exact (points_follow? hpath _).subset hindex

/-- From a branch the first turn leads to a child, and the others on from there. -/
theorem leadsTo_branch {axis : Nat} {split : N} {left right : Node N} {box : Box N} :
    LeadsTo tree ⟨.branch axis split left right, box⟩ path index ↔
      (∃ rest, path = .left :: rest ∧ LeadsTo tree ⟨left, box.lowerPart axis split⟩ rest index) ∨
      ∃ rest, path = .right :: rest ∧
        LeadsTo tree ⟨right, box.upperPart axis split⟩ rest index := by
  constructor
  · rintro ⟨leaf, listed, hpath, hlisted, hindex⟩
    rcases path with _ | ⟨_ | _, rest⟩
    · obtain rfl := Option.some.inj hpath
      nomatch hlisted
    · exact .inl ⟨rest, rfl, leaf, listed, hpath, hlisted, hindex⟩
    · exact .inr ⟨rest, rfl, leaf, listed, hpath, hlisted, hindex⟩
  · rintro (⟨rest, rfl, hrest⟩ | ⟨rest, rfl, hrest⟩)
    · exact hrest
    · exact hrest

/-- To each point below a node, none of them there twice, leads one path. -/
theorem existsUnique_leadsTo {node : Node N} {box : Box N} (hstocked : node.Stocked tree.order)
    (hnodup : (node.points tree.order).Nodup) (hindex : index ∈ node.points tree.order) :
    ∃! path, LeadsTo tree ⟨node, box⟩ path index := by
  induction node generalizing box with
  | leaf first last =>
    refine ⟨[], ⟨_, _, rfl, listed?_of_stocked rfl hstocked, hindex⟩, ?_⟩
    rintro (_ | ⟨_ | _, rest⟩) ⟨leaf, listed, hpath, -⟩
    · rfl
    · nomatch hpath
    · nomatch hpath
  | branch axis split left right ihl ihr =>
    obtain ⟨hleft, hright⟩ := Node.stocked_branch.mp hstocked
    obtain ⟨hnodupLeft, hnodupRight, hapart⟩ := List.nodup_append'.mp hnodup
    simp only [leadsTo_branch]
    rcases List.mem_append.mp hindex with hindex | hindex
    · obtain ⟨path, hpath, hunique⟩ := ihl hleft hnodupLeft hindex
      refine ⟨.left :: path, .inl ⟨path, rfl, hpath⟩, ?_⟩
      rintro _ (⟨rest, rfl, hrest⟩ | ⟨rest, rfl, hrest⟩)
      · rw [hunique rest hrest]
      · exact absurd hrest.mem_points (hapart hindex)
    · obtain ⟨path, hpath, hunique⟩ := ihr hright hnodupRight hindex
      refine ⟨.right :: path, .inr ⟨path, rfl, hpath⟩, ?_⟩
      rintro _ (⟨rest, rfl, hrest⟩ | ⟨rest, rfl, hrest⟩)
      · exact absurd hindex (hapart hrest.mem_points)
      · rw [hunique rest hrest]

end Paths

section Sound

variable [Coordinate N]

/-- What is known of a region: its box contains the points below it, these lie on their sides of
every split, and no leaf is empty. -/
structure Sound (source : Source N) (order : Array Nat) (region : Region N) : Prop where
  dims_eq : region.box.dims = source.dims
  complete : ∀ index ∈ region.node.points order, source.Complete index
  contains : ∀ index ∈ region.node.points order,
    region.box.contains (source.coordinates index) = true
  ordered : region.node.Ordered source order
  stocked : region.node.Stocked order

namespace Sound

variable {source : Source N} {order : Array Nat} {region next last : Region N}

/-- A side of a sound region holds the coordinates of the points below it. -/
theorem holds (h : region.Sound source order) {index axis : Nat} {side : Side N} {v : N}
    (hindex : index ∈ region.node.points order) (hside : region.box.sides[axis]? = some side)
    (hv : source.coordinate? index axis = some v) : side.Holds v := by
  have haxis : axis < source.dims := h.dims_eq ▸ (List.getElem?_eq_some_iff.mp hside).1
  refine ((Box.contains_iff _ _).mp (h.contains index hindex)).2 axis side v hside ?_
  rwa [Source.getElem?_coordinates (h.complete index hindex) haxis]

variable [LawfulCoordinate N]

/-- No side of a sound region is inverted. -/
theorem upright (h : region.Sound source order) :
    ∀ side ∈ region.box.sides, side.low ≤ side.high := by
  intro side hmem
  obtain ⟨axis, hside⟩ := List.getElem?_of_mem hmem
  obtain ⟨index, hindex⟩ := h.stocked.exists_point
  have haxis : axis < source.dims := h.dims_eq ▸ (List.getElem?_eq_some_iff.mp hside).1
  obtain ⟨v, hv⟩ := Option.isSome_iff_exists.mp (h.complete index hindex axis haxis)
  obtain ⟨hlow, hhigh⟩ := h.holds hindex hside hv
  exact Comparison.trans hlow hhigh

/-- A child of a sound region is sound if its box is that of its parent with one side changed, the
changed side holds the points below the child, and it reaches no further than before. -/
private theorem adjust {axis : Nat} {f : Side N → Side N} {node : Node N}
    (h : region.Sound source order) (hpoints : node.points order ⊆ region.node.points order)
    (hordered : node.Ordered source order) (hstocked : node.Stocked order)
    (hholds : ∀ index ∈ node.points order, ∀ side v, source.coordinate? index axis = some v →
      side.Holds v → (f side).Holds v)
    (hwithin : ∀ side, region.box.sides[axis]? = some side →
      side.low ≤ (f side).low ∧ (f side).high ≤ side.high) :
    Sound source order ⟨node, region.box.adjust axis f⟩ ∧
      region.box.covers (region.box.adjust axis f) = true := by
  refine ⟨⟨?_, fun index hindex => h.complete index (hpoints hindex), fun index hindex => ?_,
    hordered, hstocked⟩, Box.covers_adjust h.upright hwithin⟩
  · exact (List.length_modify ..).trans h.dims_eq
  · refine Box.contains_adjust (h.contains index (hpoints hindex)) fun side v hside hv hold => ?_
    have haxis : axis < source.dims := h.dims_eq ▸ (List.getElem?_eq_some_iff.mp hside).1
    rw [Source.getElem?_coordinates (h.complete index (hpoints hindex)) haxis] at hv
    exact hholds index hindex side v hv hold

/-- The split of a sound region lies between the ends of the side that it cuts. -/
private theorem split_holds {axis : Nat} {split : N} {left right : Node N} {box : Box N}
    (h : Sound source order ⟨.branch axis split left right, box⟩) {side : Side N}
    (hside : box.sides[axis]? = some side) : side.Holds split := by
  obtain ⟨-, hleft, hright, -, -⟩ := h.ordered
  obtain ⟨hstockedLeft, hstockedRight⟩ := Node.stocked_branch.mp h.stocked
  constructor
  · obtain ⟨index, hindex⟩ := hstockedLeft.exists_point
    obtain ⟨v, hv, hle⟩ := hleft index hindex
    exact Comparison.trans (h.holds (List.mem_append_left _ hindex) hside hv).1 hle
  · obtain ⟨index, hindex⟩ := hstockedRight.exists_point
    obtain ⟨v, hv, hle⟩ := hright index hindex
    exact Comparison.trans hle (h.holds (List.mem_append_right _ hindex) hside hv).2

/-- A turn leads from a sound region to a sound one, which the box of the first covers. -/
theorem child (h : region.Sound source order) {turn : Turn}
    (hchild : region.child? turn = some next) :
    next.Sound source order ∧ region.box.covers next.box = true := by
  obtain ⟨node, box⟩ := region
  cases node with
  | leaf first last => cases turn <;> nomatch hchild
  | branch axis split left right =>
    obtain ⟨-, hleft, hright, horderedLeft, horderedRight⟩ := h.ordered
    obtain ⟨hstockedLeft, hstockedRight⟩ := Node.stocked_branch.mp h.stocked
    cases turn with
    | left =>
      obtain rfl := Option.some.inj hchild
      refine h.adjust (List.subset_append_left _ _) horderedLeft hstockedLeft ?_ ?_
      · intro index hindex side v hv hold
        obtain ⟨w, hw, hle⟩ := hleft index hindex
        obtain rfl := Option.some.inj (hv.symm.trans hw)
        exact ⟨hold.1, hle⟩
      · intro side hside
        have hsplit := h.split_holds hside
        exact ⟨Comparison.left hsplit.1, hsplit.2⟩
    | right =>
      obtain rfl := Option.some.inj hchild
      refine h.adjust (List.subset_append_right _ _) horderedRight hstockedRight ?_ ?_
      · intro index hindex side v hv hold
        obtain ⟨w, hw, hle⟩ := hright index hindex
        obtain rfl := Option.some.inj (hv.symm.trans hw)
        exact ⟨hle, hold.2⟩
      · intro side hside
        have hsplit := h.split_holds hside
        exact ⟨hsplit.1, Comparison.right hsplit.2⟩

/-- Turns lead from a sound region to sound ones. -/
theorem follow (h : region.Sound source order) {path : List Turn}
    (hpath : region.follow? path = some last) : last.Sound source order := by
  induction path generalizing region with
  | nil =>
    obtain rfl := Option.some.inj hpath
    exact h
  | cons turn path ih =>
    obtain ⟨child, hchild, hpath⟩ := Option.bind_eq_some_iff.mp hpath
    exact ih (h.child hchild).1 hpath

end Sound

end Sound

end Region

namespace Tree

variable [Coordinate N] [LawfulCoordinate N] {source : Source N} {options : BuildOptions}
variable {points : List Nat} {bounds : Option (Box N)} {tree : Tree N}

/-- The region of a tree over finite points is sound if its box covers them and a word can count
them. -/
theorem Built.sound (h : Built source options points bounds tree)
    (hfinite : ∀ index ∈ points, source.FiniteAt index)
    (hcover : ∀ box, bounds = some box →
      ∀ index ∈ points, box.contains (source.coordinates index) = true)
    (hwords : points.length ≤ maxWord32) : (Region.ofTree tree).Sound source tree.order := by
  have hsearchable := h.searchable hfinite hcover hwords
  have hencloses : tree.box.Encloses source points := h.encloses fun box hbox =>
    Source.encloses_of_contains (fun index hindex => (hfinite index hindex).complete)
      (hcover box hbox)
  have habut := (h.grows_root hwords).abut h.leafSize_ne_zero h.box_dims hencloses hfinite
    h.points_ne_nil
  have hmem {index : Nat} (hindex : index ∈ tree.root.points tree.order) : index ∈ tree.order := by
    rwa [hsearchable.points_eq, Array.mem_toList_iff] at hindex
  exact {
    dims_eq := hsearchable.box_dims
    complete := fun index hindex => (hsearchable.finite index (hmem hindex)).complete
    contains := fun index hindex => hsearchable.covered index (hmem hindex)
    ordered := hsearchable.ordered
    stocked := by
      rw [Nat.zero_add, ← h.order_perm.length_eq] at habut
      exact habut.lt_and_le }

/-- The regions that turns lead to in a tree over finite points, if its box covers these and a word
can count them. No side of such a region is inverted, its box covers those of its children and
contains the points that further turns lead to, and if it is a leaf it lists points of the tree,
none of them twice. To every point of the tree leads exactly one path. -/
theorem regions_sound (hfinite : ∀ index ∈ points, source.FiniteAt index)
    (hcover : ∀ box, bounds = some box →
      ∀ index ∈ points, box.contains (source.coordinates index) = true)
    (hnodup : points.Nodup) (hwords : points.length ≤ maxWord32)
    (h : build source options points bounds = .ok tree) :
    (∀ path region, (Region.ofTree tree).follow? path = some region →
      (∀ side ∈ region.box.sides, side.low ≤ side.high) ∧
      (∀ turn child, region.child? turn = some child → region.box.covers child.box = true) ∧
      (∀ more index, region.LeadsTo tree more index →
        region.box.contains (source.coordinates index) = true) ∧
      (region.isLeaf = true →
        ∃ listed, region.listed? tree = some listed ∧ listed.Nodup ∧ listed ⊆ points)) ∧
    ∀ index ∈ points, ∃! path, (Region.ofTree tree).LeadsTo tree path index := by
  have hbuilt := build_eq_ok h
  have hsound := hbuilt.sound hfinite hcover hwords
  have hperm : (tree.root.points tree.order).Perm points := by
    rw [(hbuilt.searchable hfinite hcover hwords).points_eq]
    exact hbuilt.order_perm
  refine ⟨fun path region hpath => ?_, fun index hindex => ?_⟩
  · have hregion := hsound.follow hpath
    have hbelow := Region.points_follow? hpath tree.order
    refine ⟨hregion.upright, fun turn child hchild => (hregion.child hchild).2,
      fun more index hmore => hregion.contains index hmore.mem_points, fun hleaf => ?_⟩
    exact ⟨_, Region.listed?_of_stocked hleaf hregion.stocked,
      (hperm.nodup_iff.mpr hnodup).sublist hbelow, List.Subset.trans hbelow.subset hperm.subset⟩
  · exact Region.existsUnique_leadsTo hsound.stocked (hperm.nodup_iff.mpr hnodup)
      (hperm.mem_iff.mpr hindex)

end Tree

/-- The regions of the tree over three bytes are sound, and one path leads to each of these. -/
theorem regions_sound_singlesTree :
    (∀ index ∈ [2, 0, 3], byteSource.FiniteAt index) ∧
    (∀ box : Box UInt8, some ⟨[⟨0, 255⟩]⟩ = some box →
      ∀ index ∈ [2, 0, 3], box.contains (byteSource.coordinates index) = true) ∧
    [2, 0, 3].Nodup ∧ [2, 0, 3].length ≤ maxWord32 ∧
    Tree.build byteSource ⟨1, none⟩ [2, 0, 3] (some ⟨[⟨0, 255⟩]⟩) = .ok singlesTree ∧
    (∀ turn child, (Region.ofTree singlesTree).child? turn = some child →
      (Region.ofTree singlesTree).box.covers child.box = true) ∧
    ∃! path, (Region.ofTree singlesTree).LeadsTo singlesTree path 0 := by
  have hinside : ∀ index ∈ [2, 0, 3], index < byteSource.size := by decide
  have hfinite : ∀ index ∈ [2, 0, 3], byteSource.FiniteAt index := fun index hindex =>
    finite_byteSource index (hinside index hindex)
  have hcover : ∀ box : Box UInt8, some ⟨[⟨0, 255⟩]⟩ = some box →
      ∀ index ∈ [2, 0, 3], box.contains (byteSource.coordinates index) = true := by
    intro box hbox
    obtain rfl := Option.some.inj hbox
    decide
  have hnodup : [2, 0, 3].Nodup := by decide
  have hwords : [2, 0, 3].length ≤ maxWord32 := by decide
  have hbuild : Tree.build byteSource ⟨1, none⟩ [2, 0, 3] (some ⟨[⟨0, 255⟩]⟩) =
      .ok singlesTree := by decide +kernel
  obtain ⟨hregions, hpaths⟩ := Tree.regions_sound hfinite hcover hnodup hwords hbuild
  exact ⟨hfinite, hcover, hnodup, hwords, hbuild, (hregions [] _ rfl).2.1, hpaths 0 (by decide)⟩

end Proximity
