import Mathlib
import Proximity.Proofs.Options
import Proximity.Proofs.Tree.Split
import Proximity.Tree.Build

/-!
# What a built tree looks like

A subtree comes about by cutting its points until they fit a leaf. From that one description
follow, by induction, that no point is lost or doubled, that every leaf is a range of the
arrangement, and that over finite points no child reaches beyond the split of its parent. What a
tree keeps is such a subtree with the ends of its leaves as words. These are the ends themselves,
unless there are more points than a word can count.
-/

namespace Proximity

variable {N : Type}

/-- The points of a node, leaf by leaf from the left. -/
def Node.points (order : Array Nat) : Node N → List Nat
  | .leaf first last => (order.extract first last).toList
  | .branch _ _ left right => left.points order ++ right.points order

/-- The points of a leaf are points of the arrangement. -/
theorem mem_of_mem_extract {order : Array Nat} {first last index : Nat}
    (h : index ∈ (order.extract first last).toList) : index ∈ order := by
  rw [Array.toList_extract, List.extract_eq_take_drop] at h
  exact Array.mem_toList_iff.mp (List.mem_of_mem_drop (List.mem_of_mem_take h))

/-- The points of a node are points of the arrangement. -/
theorem Node.mem_of_mem_points {order : Array Nat} {node : Node N} {index : Nat}
    (h : index ∈ node.points order) : index ∈ order := by
  induction node with
  | leaf first last => exact mem_of_mem_extract h
  | branch axis split left right ihl ihr => exact (List.mem_append.mp h).elim ihl ihr

/-- Whether every leaf is a range of an arrangement of some size. -/
def Node.InRange (size : Nat) : Node N → Prop
  | .leaf first last => first ≤ last ∧ last ≤ size
  | .branch _ _ left right => left.InRange size ∧ right.InRange size

/-- A node as a tree keeps it, with the ends of its leaves as words. -/
def Node.stored : Node N → Node N
  | .leaf first last => .leaf (toWord32 first) (toWord32 last)
  | .branch axis split left right => .branch axis split left.stored right.stored

/-- A node is kept with all its nodes. -/
@[simp] theorem Node.count_stored (node : Node N) : node.stored.count = node.count := by
  induction node with
  | leaf first last => rfl
  | branch axis split left right ihl ihr => rw [stored, count, count, ihl, ihr]

/-- Leaves of an arrangement that words can count are kept as they are. -/
theorem Node.InRange.stored_eq {node : Node N} {size : Nat} (h : node.InRange size)
    (hsize : size ≤ maxWord32) : node.stored = node := by
  induction node with
  | leaf first last =>
    have hlast := h.2.trans hsize
    rw [stored, toWord32_of_le (h.1.trans hlast), toWord32_of_le hlast]
  | branch axis split left right ihl ihr => rw [stored, ihl h.1, ihr h.2]

variable [Coordinate N]

/-- Whether no point below a branch lies beyond its split on the wrong side. -/
def Node.Ordered (source : Source N) (order : Array Nat) : Node N → Prop
  | .leaf .. => True
  | .branch axis split left right =>
    axis < source.dims ∧
      (∀ index ∈ left.points order, ∃ v, source.coordinate? index axis = some v ∧ v ≤ split) ∧
      (∀ index ∈ right.points order, ∃ v, source.coordinate? index axis = some v ∧ split ≤ v) ∧
      left.Ordered source order ∧ right.Ordered source order

/-- How a subtree and the arrangement of its points come about, for a range that begins at
`first`, before the ends of its leaves are kept as words. -/
inductive Grows (source : Source N) (leafSize : Nat) :
    Nat → Box N → List Nat → Node N → List Nat → Prop
  | leaf {first box points} : points.length ≤ leafSize →
      Grows source leafSize first box points (.leaf first (first + points.length)) points
  | branch {first box points cut lower upper left right leftOrder rightOrder} :
      leafSize < points.length → source.cut box points = .ok cut →
      source.boxAround cut.below = .ok lower → source.boxAround cut.above = .ok upper →
      Grows source leafSize first lower cut.below left leftOrder →
      Grows source leafSize (first + cut.below.length) upper cut.above right rightOrder →
      Grows source leafSize first box points (.branch cut.axis cut.split left right)
        (leftOrder ++ rightOrder)

namespace Tree

/-- A subtree that was grown came about as described, and every node was counted. -/
theorem grow_eq_ok {source : Source N} {options : BuildOptions} {levels count first : Nat}
    {box : Box N} {points : List Nat} {growth : Growth N} (hcount : count ≤ maxWord32)
    (h : grow source options levels count first box points = .ok growth) :
    (∃ node, Grows source options.leafSize first box points node growth.order ∧
      growth.node = node.stored) ∧
      growth.count + 1 = count + growth.node.count ∧ growth.count ≤ maxWord32 := by
  induction levels generalizing count first box points growth with
  | zero => nomatch h
  | succ levels ih =>
    rw [grow] at h
    split at h
    · next hfits =>
      obtain rfl := Except.ok.inj h
      exact ⟨⟨_, .leaf hfits, rfl⟩, rfl, hcount⟩
    · next hfits =>
      obtain ⟨cut, hcut, h⟩ := Outcome.bind_eq_ok.mp h
      obtain ⟨_, hroom, h⟩ := Outcome.bind_eq_ok.mp h
      obtain ⟨_, hroom', h⟩ := Outcome.bind_eq_ok.mp h
      obtain ⟨lower, hlower, h⟩ := Outcome.bind_eq_ok.mp h
      obtain ⟨upper, hupper, h⟩ := Outcome.bind_eq_ok.mp h
      obtain ⟨left, hleft, h⟩ := Outcome.bind_eq_ok.mp h
      obtain ⟨right, hright, h⟩ := Outcome.bind_eq_ok.mp h
      obtain rfl := Except.ok.inj h
      obtain ⟨hroom', -⟩ := BuildOptions.requireRoom_eq_ok.mp hroom'
      obtain ⟨⟨node, hgrows, hnode⟩, hsum, hle⟩ := ih (by omega) hleft
      obtain ⟨⟨node', hgrows', hnode'⟩, hsum', hle'⟩ := ih hle hright
      refine ⟨⟨_, .branch (Nat.lt_of_not_le hfits) hcut hlower hupper hgrows hgrows', ?_⟩, ?_,
        hle'⟩
      · rw [hnode, hnode']
        rfl
      · show right.count + 1 = count + (1 + left.node.count + right.node.count)
        omega

/-- What is known of a tree that was built. -/
structure Built (source : Source N) (options : BuildOptions) (points : List Nat)
    (bounds : Option (Box N)) (tree : Tree N) : Prop where
  leafSize_ne_zero : options.leafSize ≠ 0
  leafSize_le : options.leafSize ≤ maxWord32
  dims_ne_zero : source.dims ≠ 0
  dims_le : source.dims ≤ maxWord16
  points_ne_nil : points ≠ []
  box : (bounds = none ∧ source.boxAround points = .ok tree.box) ∨
    bounds = some tree.box ∧ tree.box.dims = source.dims
  dims_eq : tree.dims = source.dims
  leafSize_eq : tree.leafSize = options.leafSize
  room : options.requireRoom 0 = .ok ()
  grow : ∃ count, grow source options maxWord32 1 0 tree.box points =
    .ok ⟨tree.root, tree.order.toList, count⟩
  grows : ∃ node, Grows source options.leafSize 0 tree.box points node tree.order.toList ∧
    tree.root = node.stored
  nodes_le : tree.nodes ≤ maxWord32

/-- A tree that was built came about as described. -/
theorem build_eq_ok {source : Source N} {options : BuildOptions} {points : List Nat}
    {bounds : Option (Box N)} {tree : Tree N} (h : build source options points bounds = .ok tree) :
    Built source options points bounds tree := by
  obtain ⟨_, hvalid, h⟩ := Outcome.bind_eq_ok.mp h
  obtain ⟨hdims, h⟩ := Outcome.guard_eq_ok.mp h
  obtain ⟨hmany, h⟩ := Outcome.guard_eq_ok.mp h
  obtain ⟨hempty, h⟩ := Outcome.guard_eq_ok.mp h
  dsimp only at h
  obtain ⟨box, hbox, h⟩ : ∃ box, ((bounds = none ∧ source.boxAround points = .ok box) ∨
      bounds = some box ∧ box.dims = source.dims) ∧
      (options.requireRoom 0 >>= fun _ => grow source options maxWord32 1 0 box points >>=
        fun growth => pure ⟨source.dims, options.leafSize, growth.order.toArray, box,
          growth.node⟩) = .ok tree := by
    cases bounds with
    | none =>
      obtain ⟨box, hbox, h⟩ := Outcome.bind_eq_ok.mp h
      exact ⟨box, .inl ⟨rfl, hbox⟩, h⟩
    | some box =>
      dsimp only at h
      by_cases hsame : box.dims = source.dims
      · rw [if_pos hsame] at h
        exact ⟨box, .inr ⟨rfl, hsame⟩, h⟩
      · rw [if_neg hsame] at h
        nomatch h
  obtain ⟨_, hroom, h⟩ := Outcome.bind_eq_ok.mp h
  obtain ⟨growth, hgrow, h⟩ := Outcome.bind_eq_ok.mp h
  obtain rfl := Except.ok.inj h
  obtain ⟨hgrows, hsum, hle⟩ := grow_eq_ok (by decide) hgrow
  obtain ⟨hzero, hlarge⟩ := BuildOptions.validate_eq_ok.mp hvalid
  refine ⟨hzero, hlarge, hdims, Nat.le_of_not_lt hmany, ?_, hbox, rfl, rfl,
    hroom, ⟨growth.count, hgrow⟩, hgrows, ?_⟩
  · rintro rfl
    exact hempty rfl
  · show growth.node.count ≤ maxWord32
    omega

/-- With valid options, points and a box, nothing stands in the way of growing a tree. -/
theorem build_eq_grow {source : Source N} {options : BuildOptions} {points : List Nat}
    {bounds : Option (Box N)} {box : Box N} (hvalid : options.validate = .ok ())
    (hdims : source.dims ≠ 0) (hfew : source.dims ≤ maxWord16) (hpoints : points ≠ [])
    (hbox : (bounds = none ∧ source.boxAround points = .ok box) ∨
      bounds = some box ∧ box.dims = source.dims) :
    build source options points bounds =
      (options.requireRoom 0 >>= fun _ => grow source options maxWord32 1 0 box points >>=
        fun growth => .ok ⟨source.dims, options.leafSize, growth.order.toArray, box,
          growth.node⟩) := by
  rw [build, hvalid, Outcome.ok_bind, if_neg hdims, if_neg (Nat.not_lt.mpr hfew),
    if_neg (by simpa using hpoints)]
  rcases hbox with ⟨rfl, htight⟩ | ⟨rfl, hbox⟩
  · simp only [htight, Outcome.ok_bind]
    rfl
  · simp only [if_pos hbox]
    rfl

/-- A tree over all points of a source is built over no more than a word can count. -/
theorem ofSource_eq_ok {source : Source N} {options : BuildOptions} {tree : Tree N}
    (h : ofSource source options = .ok tree) :
    source.size ≤ maxWord32 ∧
      Built source options (List.range source.size) source.bounds tree := by
  unfold ofSource at h
  split at h
  · nomatch h
  · next hsize => exact ⟨Nat.le_of_not_lt hsize, build_eq_ok h⟩

end Tree

namespace Grows

/-- Two lists between others, seen from either of them. -/
theorem append_around {all before left right after : List Nat}
    (h : all = before ++ (left ++ right) ++ after) :
    all = before ++ left ++ (right ++ after) ∧ all = before ++ left ++ right ++ after := by
  simp only [List.append_assoc] at h ⊢
  exact ⟨h, h⟩

variable {source : Source N} {leafSize first : Nat} {box : Box N} {points order : List Nat}
variable {node : Node N}

section

variable [LawfulCoordinate N]

/-- A subtree arranges the points it was given. -/
theorem perm (h : Grows source leafSize first box points node order) : order.Perm points := by
  induction h with
  | leaf _ => exact .refl _
  | branch _ hcut _ _ _ _ ihl ihr => exact (ihl.append ihr).trans (Source.cut_perm hcut)

/-- The leaves of a subtree tile its part of the whole arrangement. -/
theorem points_eq (h : Grows source leafSize first box points node order) {all : Array Nat}
    {before after : List Nat} (hall : all.toList = before ++ order ++ after)
    (hfirst : before.length = first) : node.points all = order := by
  induction h generalizing before after with
  | @leaf first box points hfits =>
    rw [Node.points, Array.toList_extract, hall, List.append_assoc, ← hfirst,
      List.extract_eq_take_drop, List.drop_left, Nat.add_sub_cancel_left, List.take_left]
  | @branch first box points cut lower upper left right leftOrder rightOrder hfits hcut hlower
      hupper hleft hright ihl ihr =>
    have hlength : leftOrder.length = cut.below.length := hleft.perm.length_eq
    obtain ⟨hall', hall''⟩ := append_around hall
    have hfirst' : (before ++ leftOrder).length = first + cut.below.length := by
      rw [List.length_append, hfirst, hlength]
    rw [Node.points, ihl hall' hfirst, ihr hall'' hfirst']

/-- The leaves of a subtree are ranges of every arrangement that reaches to its end. -/
theorem inRange (h : Grows source leafSize first box points node order) {size : Nat}
    (hsize : first + points.length ≤ size) : node.InRange size := by
  induction h with
  | leaf _ => exact ⟨Nat.le_add_right _ _, hsize⟩
  | @branch first box points cut lower upper left right leftOrder rightOrder hfits hcut hlower
      hupper hleft hright ihl ihr =>
    have hlength := (Source.cut_perm hcut).length_eq
    rw [List.length_append] at hlength
    exact ⟨ihl (by omega), ihr (by omega)⟩

/-- Over finite points no child reaches beyond the split of its parent. -/
theorem ordered (h : Grows source leafSize first box points node order)
    (hdims : 0 < source.dims) (hbox : box.dims = source.dims)
    (hfinite : ∀ index ∈ points, source.FiniteAt index) {all : Array Nat}
    {before after : List Nat} (hall : all.toList = before ++ order ++ after)
    (hfirst : before.length = first) : node.Ordered source all := by
  induction h generalizing before after with
  | leaf _ => trivial
  | @branch first box points cut lower upper left right leftOrder rightOrder hfits hcut hlower
      hupper hleft hright ihl ihr =>
    obtain ⟨haxis, hbelow, habove⟩ := Source.cut_orders hdims hbox hfinite hcut
    obtain ⟨hfiniteBelow, hfiniteAbove⟩ := Source.cut_finite hfinite hcut
    have hlength : leftOrder.length = cut.below.length := hleft.perm.length_eq
    obtain ⟨hall', hall''⟩ := append_around hall
    have hfirst' : (before ++ leftOrder).length = first + cut.below.length := by
      rw [List.length_append, hfirst, hlength]
    refine ⟨haxis, ?_, ?_, ihl (Source.boxAround_eq_ok hlower).1 hfiniteBelow hall' hfirst,
      ihr (Source.boxAround_eq_ok hupper).1 hfiniteAbove hall'' hfirst'⟩
    · rw [hleft.points_eq hall' hfirst]
      exact fun index hindex => hbelow index (hleft.perm.mem_iff.mp hindex)
    · rw [hright.points_eq hall'' hfirst']
      exact fun index hindex => habove index (hright.perm.mem_iff.mp hindex)

end

end Grows

/-- Whether a tree arranges points of a source in a way that can be searched. -/
structure Tree.Searchable (source : Source N) (tree : Tree N) : Prop where
  dims_eq : tree.dims = source.dims
  box_dims : tree.box.dims = source.dims
  finite : ∀ index ∈ tree.order, source.FiniteAt index
  covered : ∀ index ∈ tree.order, tree.box.contains (source.coordinates index) = true
  points_eq : tree.root.points tree.order = tree.order.toList
  inRange : tree.root.InRange tree.order.size
  ordered : tree.root.Ordered source tree.order

namespace Tree.Built

variable [LawfulCoordinate N] {source : Source N} {options : BuildOptions} {points : List Nat}
variable {bounds : Option (Box N)} {tree : Tree N}

/-- A built tree arranges the points that it was given. -/
theorem order_perm (h : Built source options points bounds tree) :
    tree.order.toList.Perm points :=
  h.grows.elim fun _ hgrows => hgrows.1.perm

theorem size_eq (h : Built source options points bounds tree) : tree.size = points.length := by
  rw [← h.order_perm.length_eq]
  rfl

omit [LawfulCoordinate N] in
/-- A built tree has all nodes of the subtree that came about. -/
theorem exists_grows (h : Built source options points bounds tree) : ∃ node,
    Grows source options.leafSize 0 tree.box points node tree.order.toList ∧
      tree.nodes = node.count := by
  obtain ⟨node, hgrows, hroot⟩ := h.grows
  exact ⟨node, hgrows, by rw [nodes, hroot, Node.count_stored]⟩

/-- Over no more points than a word can count, a tree keeps the subtree that came about. -/
theorem grows_root (h : Built source options points bounds tree)
    (hwords : points.length ≤ maxWord32) :
    Grows source options.leafSize 0 tree.box points tree.root tree.order.toList := by
  obtain ⟨node, hgrows, hroot⟩ := h.grows
  rw [hroot, (hgrows.inRange (Nat.zero_add _).le).stored_eq hwords]
  exact hgrows

omit [LawfulCoordinate N] in
/-- The box of a built tree has an axis for each of its source. -/
theorem box_dims (h : Built source options points bounds tree) : tree.box.dims = source.dims := by
  rcases h.box with ⟨-, htight⟩ | ⟨-, hdims⟩
  · exact (Source.boxAround_eq_ok htight).1
  · exact hdims

/-- A subtree over the finite points of a built tree is searchable if the box of the tree covers
them. -/
theorem searchable_of_grows (h : Built source options points bounds tree) {node : Node N}
    (hgrows : Grows source options.leafSize 0 tree.box points node tree.order.toList)
    (hfinite : ∀ index ∈ points, source.FiniteAt index)
    (hcover : ∀ box, bounds = some box →
      ∀ index ∈ points, box.contains (source.coordinates index) = true) :
    ({ tree with root := node } : Tree N).Searchable source := by
  have hmem (index) : index ∈ tree.order ↔ index ∈ points := by
    rw [← Array.mem_toList_iff]
    exact h.order_perm.mem_iff
  have hall : tree.order.toList = [] ++ tree.order.toList ++ [] := by
    rw [List.nil_append, List.append_nil]
  refine ⟨h.dims_eq, h.box_dims, fun index hindex => hfinite index ((hmem index).mp hindex),
    ?_, ?_, ?_, ?_⟩
  · intro index hindex
    have hindex := (hmem index).mp hindex
    rcases h.box with ⟨-, htight⟩ | ⟨hbounds, -⟩
    · obtain ⟨hdims, hsides⟩ := Source.boxAround_eq_ok htight
      have hcomplete := (hfinite index hindex).complete
      refine (Box.contains_iff _ _).mpr
        ⟨(Source.length_coordinates hcomplete).trans hdims.symm, ?_⟩
      intro axis side v hside hv
      have haxis : axis < source.dims := hdims ▸ (List.getElem?_eq_some_iff.mp hside).1
      rw [Source.getElem?_coordinates hcomplete haxis] at hv
      obtain ⟨values, hreads, haround⟩ := hsides axis haxis
      obtain rfl := Option.some.inj (hside.symm.trans haround)
      obtain ⟨w, hw, hread⟩ := hreads.exists_value index hindex
      obtain rfl := Option.some.inj (hread.symm.trans hv)
      obtain ⟨u, hu, hufinite⟩ := hfinite index hindex axis haxis
      obtain rfl := Option.some.inj (hu.symm.trans hv)
      exact Side.around_holds hw (Comparison.right hufinite.1)
    · exact hcover tree.box hbounds index hindex
  · exact hgrows.points_eq hall rfl
  · refine hgrows.inRange ?_
    rw [Nat.zero_add]
    exact h.size_eq.ge
  · exact hgrows.ordered (Nat.pos_of_ne_zero h.dims_ne_zero) h.box_dims hfinite hall rfl

/-- A tree over finite points is searchable if its box covers them and a word can count them. -/
theorem searchable (h : Built source options points bounds tree)
    (hfinite : ∀ index ∈ points, source.FiniteAt index)
    (hcover : ∀ box, bounds = some box →
      ∀ index ∈ points, box.contains (source.coordinates index) = true)
    (hwords : points.length ≤ maxWord32) : tree.Searchable source :=
  h.searchable_of_grows (h.grows_root hwords) hfinite hcover

end Tree.Built

end Proximity
