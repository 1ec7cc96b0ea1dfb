import Mathlib
import Proximity.Proofs.Tree.Alike
import Proximity.Proofs.Tree.Progress

/-!
# Trees over rearranged points

Rearranged points are alike, and points alike are cut alike all the way down. So the order in which
points are given decides how they are arranged within leaves, which of several that coincide goes to
which side, and which of several values numerically equal is written; no node of the tree depends on
it otherwise.
-/

namespace Proximity

variable {N : Type}

namespace Node

/-- A node with all nodes below it, each of them before those below it and the left ones before the
right ones. -/
def preorder : Node N → List (Node N)
  | .leaf first last => [.leaf first last]
  | .branch axis split left right =>
    .branch axis split left right :: (left.preorder ++ right.preorder)

/-- Every node is listed once. -/
theorem length_preorder (node : Node N) : node.preorder.length = node.count := by
  induction node with
  | leaf => rfl
  | branch axis split left right ihl ihr =>
    rw [preorder, List.length_cons, List.length_append, ihl, ihr, count]
    omega

/-- Whether two nodes are leaves of one range, or branches along one axis at values numerically
equal. -/
inductive Resembles [Coordinate N] : Node N → Node N → Prop
  | leaf {first last} : Resembles (.leaf first last) (.leaf first last)
  | branch {axis split other left right left' right'} : Coordinate.same split other = true →
      Resembles (.branch axis split left right) (.branch axis other left' right')

end Node

variable [Coordinate N]

theorem Coordinate.same_iff {v w : N} : same v w = true ↔ v ≤ w ∧ w ≤ v := by
  rw [same, Bool.and_eq_true, decide_eq_true_eq, decide_eq_true_eq]

/-- Boxes alike have numerically equal corners. -/
theorem Box.Alike.same_eq {box other : Box N} (h : box.Alike other) : box.same other = true := by
  rw [Box.same, Bool.and_eq_true, decide_eq_true_eq]
  refine ⟨h.length_eq, ?_⟩
  rw [List.all_eq_true]
  intro same hsame
  obtain ⟨axis, hlt, rfl⟩ := List.getElem_of_mem hsame
  rw [List.length_zipWith, lt_min_iff] at hlt
  obtain ⟨hlow, hlow', hhigh, hhigh'⟩ := h.get hlt.1 hlt.2
  rw [List.getElem_zipWith, id_eq, Side.same, Bool.and_eq_true, Coordinate.same_iff,
    Coordinate.same_iff]
  exact ⟨⟨hlow, hlow'⟩, hhigh, hhigh'⟩

/-- A box that contains a point has ordered ends. -/
theorem Box.alike_of_contains [LawfulCoordinate N] {box : Box N} {point : List N}
    (h : box.contains point = true) : box.Alike box := by
  obtain ⟨hlength, hholds⟩ := (Box.contains_iff _ _).mp h
  refine List.forall₂_same.mpr fun side hside => ?_
  obtain ⟨axis, hlt, rfl⟩ := List.getElem_of_mem hside
  obtain ⟨hlow, hhigh⟩ := hholds axis _ _ (List.getElem?_eq_getElem hlt)
    (List.getElem?_eq_getElem (hlength.symm ▸ hlt))
  exact ⟨Comparison.left hlow, Comparison.left hlow, Comparison.right hhigh,
    Comparison.right hhigh⟩

namespace Source

/-- Whether some points have, up to order, numerically the same coordinates as others. -/
def SameVectors (source : Source N) (points others : List Nat) : Prop :=
  Multiset.Rel (List.Forall₂ fun v w => Coordinate.same v w = true)
    (Multiset.map source.coordinates points) (Multiset.map source.coordinates others)

variable [LawfulCoordinate N] {source : Source N} {points others : List Nat}

/-- Finite points of one profile have numerically the same coordinates. -/
theorem forall₂_same {first second : Nat} (hfirst : source.FiniteAt first)
    (hsecond : source.FiniteAt second) (h : source.profile first = source.profile second) :
    List.Forall₂ (fun v w => Coordinate.same v w = true) (source.coordinates first)
      (source.coordinates second) := by
  have hlength := length_coordinates hfirst.complete
  have hlength' := length_coordinates hsecond.complete
  refine List.forall₂_iff_get.mpr ⟨hlength.trans hlength'.symm, fun axis hlt hlt' => ?_⟩
  have haxis : axis < source.dims := hlength ▸ hlt
  have hv : source.coordinate? first axis = some (source.coordinates first)[axis] :=
    (getElem?_coordinates hfirst.complete haxis).symm.trans (List.getElem?_eq_getElem hlt)
  have hw : source.coordinate? second axis = some (source.coordinates second)[axis] :=
    (getElem?_coordinates hsecond.complete haxis).symm.trans (List.getElem?_eq_getElem hlt')
  exact Coordinate.same_iff.mpr ⟨le_of_profile_eq hfirst hsecond haxis h hv hw,
    le_of_profile_eq hsecond hfirst haxis h.symm hw hv⟩

omit [LawfulCoordinate N] in
/-- Alike lists stay so when alike lists are put after them. -/
theorem Alike.append {more others' : List Nat} (h : source.Alike points others)
    (h' : source.Alike more others') : source.Alike (points ++ more) (others ++ others') := by
  refine ⟨List.forall_mem_append.mpr ⟨h.finite, h'.finite⟩,
    List.forall_mem_append.mpr ⟨h.finite', h'.finite'⟩, ?_⟩
  rw [List.map_append, List.map_append]
  exact h.perm.append h'.perm

theorem Alike.sameVectors (h : source.Alike points others) : source.SameVectors points others := by
  have hprofiles : Multiset.Rel Eq (Multiset.map source.profile points)
      (Multiset.map source.profile others) :=
    Multiset.rel_eq.mpr (Multiset.coe_eq_coe.mpr h.perm)
  refine Multiset.rel_map.mpr ((Multiset.rel_map.mp hprofiles).mono ?_)
  intro first hfirst second hsecond hsame
  exact forall₂_same (h.finite first hfirst) (h.finite' second hsecond) hsame

end Source

/-- Whether, node by node, the nodes of two subtrees resemble each other and the points below them
are alike. -/
def Node.Alike (source : Source N) (order order' : Array Nat) (node other : Node N) : Prop :=
  List.Forall₂ (fun node other => node.Resembles other ∧
      source.Alike (node.points order) (other.points order'))
    node.preorder other.preorder

namespace Node.Alike

variable {source : Source N} {order order' : Array Nat} {left left' right right' : Node N}

/-- Alike nodes list alike points. -/
theorem points {node other : Node N} (h : node.Alike source order order' other) :
    source.Alike (node.points order) (other.points order') := by
  cases node <;> cases other <;> exact (List.forall₂_cons.mp h).1.2

/-- Leaves of one range over points alike are alike as they are kept. One that ends where a word can
no longer count has no points then, in either arrangement. -/
theorem leaf_stored {first last : Nat}
    (h : source.Alike (order.extract first last).toList (order'.extract first last).toList)
    (hrange : first ≤ last) (hlast : last ≤ maxWord32 + 1) :
    (leaf first last).stored.Alike source order order' (leaf first last).stored := by
  rcases Nat.lt_or_ge maxWord32 last with hover | hfits
  · obtain rfl : last = maxWord32 + 1 := by omega
    have hnone (order : Array Nat) : (order.extract (toWord32 first) 0).toList = [] := by
      rw [Array.extract_zero, Array.toList_empty]
    rw [stored, toWord32_succ]
    refine .cons ⟨.leaf, ?_⟩ .nil
    rw [Node.points, Node.points, hnone, hnone]
    exact .of_perm (List.forall_mem_nil _) (.refl [])
  · rw [stored, toWord32_of_le hfits, toWord32_of_le (hrange.trans hfits)]
    exact .cons ⟨.leaf, h⟩ .nil

/-- Branches at values numerically equal are alike if their children are. -/
theorem branch {axis : Nat} {split other : N} (hsame : Coordinate.same split other = true)
    (hleft : left.Alike source order order' left')
    (hright : right.Alike source order order' right') :
    (branch axis split left right).Alike source order order' (branch axis other left' right') :=
  .cons ⟨.branch hsame, hleft.points.append hright.points⟩ (List.rel_append hleft hright)

end Node.Alike

namespace Grows

variable {source : Source N} {leafSize first : Nat} {box box' : Box N}
variable {points points' order order' : List Nat} {node node' : Node N}

/-- The points of subtrees over points alike are alike, wherever they are in the whole. -/
theorem points_alike [LawfulCoordinate N] (h : Grows source leafSize first box points node order)
    (h' : Grows source leafSize first box' points' node' order')
    (halike : source.Alike points points') {all all' : Array Nat}
    {before before' after after' : List Nat} (hall : all.toList = before ++ order ++ after)
    (hall' : all'.toList = before' ++ order' ++ after') (hfirst : before.length = first)
    (hfirst' : before'.length = first) :
    source.Alike (node.points all) (node'.points all') := by
  rw [h.points_eq hall hfirst, h'.points_eq hall' hfirst']
  exact halike.rearrange h.perm h'.perm

/-- Subtrees over points alike in boxes alike are alike as they are kept, if there is at most one
point more than a word can count. -/
theorem alike [LawfulCoordinate N] (h : Grows source leafSize first box points node order)
    (h' : Grows source leafSize first box' points' node' order')
    (halike : source.Alike points points') (hbox : box.Alike box') (hdims : box.dims = source.dims)
    (hpos : 0 < source.dims) {all all' : Array Nat} {before before' after after' : List Nat}
    (hall : all.toList = before ++ order ++ after)
    (hall' : all'.toList = before' ++ order' ++ after') (hfirst : before.length = first)
    (hfirst' : before'.length = first) (hwords : first + points.length ≤ maxWord32 + 1) :
    node.stored.Alike source all all' node'.stored := by
  induction h generalizing box' points' node' order' before before' after after' with
  | @leaf first box points hfits =>
    cases h' with
    | leaf hfits' =>
      have hgrows : Grows source leafSize first box points _ points := .leaf hfits
      have hgrows' : Grows source leafSize first box' points' _ points' := .leaf hfits'
      have hpoints := hgrows.points_alike hgrows' halike hall hall' hfirst hfirst'
      rw [← halike.length_eq] at hpoints ⊢
      exact .leaf_stored hpoints (Nat.le_add_right _ _) hwords
    | branch hmany =>
      have hlength := halike.length_eq
      omega
  | @branch first box points cut lower upper left right leftOrder rightOrder hmany hcut hlower
      hupper hleft hright ihl ihr =>
    cases h' with
    | leaf hfits =>
      have hlength := halike.length_eq
      omega
    | @branch _ _ _ cut' lower' upper' left' right' leftOrder' rightOrder' _ hcut' hlower' hupper'
        hleft' hright' =>
      have hcuts := (halike.cut hbox hdims hpos).of_eq_ok hcut hcut'
      obtain ⟨hlowers, hlowerDims⟩ := hcuts.below.boxAround.of_eq_ok hlower hlower'
      obtain ⟨huppers, hupperDims⟩ := hcuts.above.boxAround.of_eq_ok hupper hupper'
      obtain ⟨hl, hr⟩ := append_around hall
      obtain ⟨hl', hr'⟩ := append_around hall'
      -- Both right subtrees begin at the same place.
      have hsizes := hcuts.below.length_eq
      rw [← hsizes] at hright'
      have hmiddle : (before ++ leftOrder).length = first + cut.below.length := by
        rw [List.length_append, hfirst, hleft.perm.length_eq]
      have hmiddle' : (before' ++ leftOrder').length = first + cut.below.length := by
        rw [List.length_append, hfirst', hleft'.perm.length_eq, hsizes]
      have hcount := (Source.cut_perm hcut).length_eq
      rw [List.length_append] at hcount
      rw [hcuts.axis_eq]
      exact .branch (Coordinate.same_iff.mpr ⟨hcuts.split_le, hcuts.le_split⟩)
        (ihl hleft' hcuts.below hlowers hlowerDims hl hl' hfirst hfirst' (by omega))
        (ihr hright' hcuts.above huppers hupperDims hr hr' hmiddle hmiddle' (by omega))

end Grows

namespace Tree

/-- Whether two trees have numerically the same root boxes and, node by node before those below it,
nodes that resemble each other over numerically the same points. -/
structure Matches (source : Source N) (tree other : Tree N) : Prop where
  dims_eq : tree.dims = other.dims
  leafSize_eq : tree.leafSize = other.leafSize
  box : tree.box.same other.box = true
  nodes_eq : tree.nodes = other.nodes
  preorder : List.Forall₂ (fun node node' => node.Resembles node' ∧
      source.SameVectors (node.points tree.order) (node'.points other.order))
    tree.root.preorder other.root.preorder

variable [LawfulCoordinate N] {source : Source N} {options options' : BuildOptions}
variable {points others : List Nat} {bounds bounds' : Option (Box N)} {tree tree' : Tree N}

/-- Trees over points alike in boxes alike match if there is at most one point more than a word can
count. -/
theorem Built.matches (h : Built source options points bounds tree)
    (h' : Built source options others bounds' tree') (halike : source.Alike points others)
    (hbox : tree.box.Alike tree'.box) (hwords : points.length ≤ maxWord32 + 1) :
    tree.Matches source tree' := by
  have hall (order : Array Nat) : order.toList = [] ++ order.toList ++ [] := by
    rw [List.nil_append, List.append_nil]
  have hnodes : tree.root.Alike source tree.order tree'.order tree'.root := by
    obtain ⟨node, hgrows, hroot⟩ := h.grows
    obtain ⟨node', hgrows', hroot'⟩ := h'.grows
    rw [hroot, hroot']
    exact hgrows.alike hgrows' halike hbox h.box_dims (Nat.pos_of_ne_zero h.dims_ne_zero)
      (hall _) (hall _) rfl rfl ((Nat.zero_add _).trans_le hwords)
  refine ⟨h.dims_eq.trans h'.dims_eq.symm, h.leafSize_eq.trans h'.leafSize_eq.symm, hbox.same_eq,
    ?_, hnodes.imp fun _ _ ⟨hresembles, hpoints⟩ => ⟨hresembles, hpoints.sameVectors⟩⟩
  show tree.root.count = tree'.root.count
  rw [← Node.length_preorder, ← Node.length_preorder]
  exact hnodes.length_eq

/-- In whatever order finite points are given, trees over them match, or none is built for one
reason. They are built with valid options if there is room for twice the points. There are no more
points than words, as when no word is given twice. -/
theorem build_rearranged (hfinite : source.Finite)
    (hinside : ∀ index ∈ points, index < source.size)
    (hcover : ∀ box, bounds = some box →
      ∀ index ∈ points, box.contains (source.coordinates index) = true)
    (hperm : points.Perm others) (hwords : points.length ≤ maxWord32 + 1) :
    Outcome.Both (Matches source) (build source options points bounds)
      (build source options others bounds) ∧
    (options.validate = .ok () → source.dims ≠ 0 → source.dims ≤ maxWord16 → points ≠ [] →
      2 * points.length ≤ options.limit + 1 →
      ∃ tree tree', build source options points bounds = .ok tree ∧
        build source options others bounds = .ok tree' ∧ tree.Matches source tree') := by
  have hpoints : ∀ index ∈ points, source.FiniteAt index := fun index hindex =>
    hfinite index (hinside index hindex)
  have hcomplete : ∀ index ∈ points, source.Complete index := fun index hindex =>
    (hpoints index hindex).complete
  have halike := Source.Alike.of_perm hpoints hperm
  have hordered (box : Box N) (hbox : bounds = some box) (hsome : points ≠ []) : box.Alike box := by
    obtain ⟨index, hindex⟩ := List.exists_mem_of_ne_nil points hsome
    exact Box.alike_of_contains (hcover box hbox index hindex)
  have hboth : Outcome.Both (Matches source) (build source options points bounds)
      (build source options others bounds) :=
    (build_alike halike bounds hordered).imp fun tree tree' htree htree' hbox =>
      (build_eq_ok htree).matches (build_eq_ok htree') halike hbox hwords
  refine ⟨hboth, fun hvalid hdims hfew hsome hroom => ?_⟩
  have hbuildable : Buildable source options points bounds := by
    refine ⟨hvalid, hdims, hfew, hsome, hcomplete, fun box hbox => ⟨?_, ?_⟩⟩
    · obtain ⟨index, hindex⟩ := List.exists_mem_of_ne_nil points hsome
      rw [← Source.length_coordinates (hcomplete index hindex)]
      exact ((Box.contains_iff _ _).mp (hcover box hbox index hindex)).1.symm
    · exact Source.encloses_of_contains hcomplete (hcover box hbox)
  obtain ⟨tree, htree⟩ := hbuildable.exists_build (Source.noneAbove_of_finite hpoints) hroom
  rw [htree] at hboth ⊢
  generalize build source options others bounds = result at hboth ⊢
  cases hboth with
  | ok hmatches => exact ⟨_, _, rfl, rfl, hmatches⟩

/-- Three points on one axis, of which the first two coincide at zeros of either sign, and a box
that covers them. -/
def zerosSource : Source Binary64 :=
  { Source.ofRows #[#[0], #[-0], #[1]] with bounds := some ⟨[⟨-0, .maxFinite⟩]⟩ }

/-- Given in another order they make another tree, and the two match. -/
theorem build_zerosSource :
    zerosSource.Finite ∧ (∀ index ∈ [0, 1, 2], index < zerosSource.size) ∧
    (∀ box, zerosSource.bounds = some box →
      ∀ index ∈ [0, 1, 2], box.contains (zerosSource.coordinates index) = true) ∧
    List.Perm [0, 1, 2] [1, 0, 2] ∧ [0, 1, 2].length ≤ maxWord32 + 1 ∧
    ∃ tree tree', build zerosSource ⟨1, none⟩ [0, 1, 2] zerosSource.bounds = .ok tree ∧
      build zerosSource ⟨1, none⟩ [1, 0, 2] zerosSource.bounds = .ok tree' ∧ tree ≠ tree' ∧
      tree.Matches zerosSource tree' := by
  have hfinite : zerosSource.Finite := by
    intro index hindex axis haxis
    obtain rfl : axis = 0 := Nat.lt_one_iff.mp haxis
    have hindex : index < 3 := hindex
    interval_cases index <;> exact ⟨_, rfl, by decide⟩
  have hinside : ∀ index ∈ [0, 1, 2], index < zerosSource.size := by decide
  have hcover : ∀ box, zerosSource.bounds = some box →
      ∀ index ∈ [0, 1, 2], box.contains (zerosSource.coordinates index) = true := by
    intro box hbox
    obtain rfl := Option.some.inj hbox
    decide
  have hperm : List.Perm [0, 1, 2] [1, 0, 2] := .swap 1 0 [2]
  have hwords : [0, 1, 2].length ≤ maxWord32 + 1 := by decide
  have hdiffer : build zerosSource ⟨1, none⟩ [0, 1, 2] zerosSource.bounds ≠
      build zerosSource ⟨1, none⟩ [1, 0, 2] zerosSource.bounds := by decide +kernel
  have hvalid : BuildOptions.validate ⟨1, none⟩ = .ok () := rfl
  obtain ⟨tree, tree', htree, htree', hmatches⟩ :=
    (build_rearranged hfinite hinside hcover hperm hwords).2 hvalid (by decide) (by decide)
      (by decide) (by decide)
  refine ⟨hfinite, hinside, hcover, hperm, hwords, tree, tree', htree, htree', ?_, hmatches⟩
  rintro rfl
  exact hdiffer (htree.trans htree'.symm)

end Tree

end Proximity
