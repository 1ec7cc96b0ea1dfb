import Mathlib
import Proximity.Proofs.Overfull
import Proximity.Proofs.Tree.Rearranged
import Proximity.Proofs.Tree.Regions

/-!
# Trees that mirror each other

Trees over the same points in another order are cut at the same ranks on the same axes, at splits
that are numerically equal. So both have the same leaves as ranges, and the same points on either
side of a split, for the points below a split are less than it. Where they are not, all points of
the branch coincide, and then it is chance which of them are on which side.
-/

namespace Proximity

variable {N : Type} [Coordinate N]

/-- Whether two nodes have the same ranges and axes and numerically equal splits, all the way
down. -/
inductive Node.Mirrors : Node N → Node N → Prop
  | leaf (first last : Nat) : Mirrors (.leaf first last) (.leaf first last)
  | branch {axis : Nat} {split split' : N} {left left' right right' : Node N} :
      split ≤ split' → split' ≤ split → Mirrors left left' → Mirrors right right' →
      Mirrors (.branch axis split left right) (.branch axis split' left' right')

section Growing

variable [LawfulCoordinate N] {source : Source N} {leafSize first : Nat} {box box' : Box N}
variable {points points' order order' : List Nat} {node node' : Node N}

/-- Subtrees over points alike in boxes alike mirror each other. -/
theorem Grows.mirrors (h : Grows source leafSize first box points node order)
    (h' : Grows source leafSize first box' points' node' order')
    (halike : source.Alike points points') (hbox : box.Alike box')
    (hdims : box.dims = source.dims) (hpos : 0 < source.dims) : node.Mirrors node' := by
  induction h generalizing box' points' node' order' with
  | leaf hfits =>
    have hlength := halike.length_eq
    cases h' with
    | leaf hfits' =>
      rw [hlength]
      exact .leaf _ _
    | branch hmany => omega
  | @branch first box points cut lower upper left right leftOrder rightOrder hmany hcut hlower
      hupper hleft hright ihl ihr =>
    have hlength := halike.length_eq
    cases h' with
    | leaf hfits => omega
    | @branch _ _ _ cut' lower' upper' left' right' leftOrder' rightOrder' _ hcut' hlower' hupper'
        hleft' hright' =>
      have hcuts := (halike.cut hbox hdims hpos).of_eq_ok hcut hcut'
      obtain ⟨hlowers, hlowerDims⟩ := hcuts.below.boxAround.of_eq_ok hlower hlower'
      obtain ⟨huppers, hupperDims⟩ := hcuts.above.boxAround.of_eq_ok hupper hupper'
      rw [← hcuts.below.length_eq] at hright'
      rw [hcuts.axis_eq]
      exact .branch hcuts.split_le hcuts.le_split (ihl hleft' hcuts.below hlowers hlowerDims)
        (ihr hright' hcuts.above huppers hupperDims)

end Growing

/-- What is known of a node over finite points of a source: its leaves are ranges of the
arrangement, none of them empty or with more points than a word can count, and its splits keep
points apart. -/
structure Node.Tidy (source : Source N) (order : Array Nat) (node : Node N) : Prop where
  inRange : node.InRange order.size
  narrow : node.Narrow
  ordered : node.Ordered source order
  strict : node.Strict source order
  stocked : node.Stocked order

/-- The children of a tidy branch are tidy. -/
theorem Node.Tidy.children {source : Source N} {order : Array Nat} {axis : Nat} {split : N}
    {left right : Node N} (h : (branch axis split left right).Tidy source order) :
    left.Tidy source order ∧ right.Tidy source order := by
  obtain ⟨-, -, -, hleft, hright⟩ := h.ordered
  obtain ⟨-, hstrict, hstrict'⟩ := h.strict
  obtain ⟨hstocked, hstocked'⟩ := stocked_branch.mp h.stocked
  exact ⟨⟨h.inRange.1, h.narrow.1, hleft, hstrict, hstocked⟩,
    ⟨h.inRange.2, h.narrow.2, hright, hstrict', hstocked'⟩⟩

/-- The coordinates of points that coincide are numerically equal. -/
theorem Source.Coincide.coordinates {source : Source N} {points : List Nat}
    (h : source.Coincide points) (hfinite : ∀ index ∈ points, source.FiniteAt index) {i j : Nat}
    (hi : i ∈ points) (hj : j ∈ points) :
    List.Forall₂ (fun v w => v ≤ w ∧ w ≤ v) (source.coordinates i) (source.coordinates j) := by
  have hcomplete := (hfinite i hi).complete
  have hcomplete' := (hfinite j hj).complete
  have hlength := length_coordinates hcomplete
  have hlength' := length_coordinates hcomplete'
  refine List.forall₂_iff_get.mpr ⟨hlength.trans hlength'.symm, fun axis hlt hlt' => ?_⟩
  have haxis : axis < source.dims := hlength ▸ hlt
  have hv := (getElem?_coordinates hcomplete haxis).symm.trans (List.getElem?_eq_getElem hlt)
  have hw := (getElem?_coordinates hcomplete' haxis).symm.trans (List.getElem?_eq_getElem hlt')
  exact ⟨h i hi j hj axis haxis _ _ hv hw, h j hj i hi axis haxis _ _ hw hv⟩

/-- Points that coincide, some of them on both sides of a split, lie on it. -/
theorem Node.Tidy.on_split [LawfulCoordinate N] {source : Source N} {order : Array Nat} {axis : Nat}
    {split : N} {left right : Node N} (h : (branch axis split left right).Tidy source order)
    {points : List Nat} (hcoincide : source.Coincide points)
    (hbelow : ∀ index ∈ (branch axis split left right).points order, index ∈ points) {index : Nat}
    (hindex : index ∈ points) {w : N} (hw : source.coordinate? index axis = some w) :
    w ≤ split ∧ split ≤ w := by
  obtain ⟨haxis, hlow, hhigh, -, -⟩ := h.ordered
  obtain ⟨hbelowLeft, hbelowRight⟩ := List.forall_mem_append.mp hbelow
  obtain ⟨i, hi⟩ := h.children.1.stocked.exists_point
  obtain ⟨j, hj⟩ := h.children.2.stocked.exists_point
  obtain ⟨u, hu, hule⟩ := hlow i hi
  obtain ⟨u', hu', hleu⟩ := hhigh j hj
  have hwu := hcoincide index hindex i (hbelowLeft i hi) axis haxis w u hw hu
  have huw := hcoincide j (hbelowRight j hj) index hindex axis haxis u' w hu' hw
  exact ⟨Comparison.trans hwu hule, Comparison.trans hleu huw⟩

/-- Lists parted by one property have the same elements on both sides if they have them at all. -/
theorem perm_of_parted {α : Type} {p : α → Prop} {left left' right right' : List α}
    (hperm : (left ++ right).Perm (left' ++ right')) (hleft : ∀ a ∈ left, p a)
    (hright : ∀ a ∈ right, ¬ p a) (hleft' : ∀ a ∈ left', p a) (hright' : ∀ a ∈ right', ¬ p a) :
    left.Perm left' ∧ right.Perm right' := by
  classical
  have hfilter {left right : List α} (hleft : ∀ a ∈ left, p a) (hright : ∀ a ∈ right, ¬ p a) :
      (left ++ right).filter (p ·) = left ∧ (left ++ right).filter (¬ p ·) = right := by
    rw [List.filter_append, List.filter_append]
    constructor
    · rw [List.filter_eq_self.mpr (by simpa using hleft),
        List.filter_eq_nil_iff.mpr (by simpa using hright), List.append_nil]
    · rw [List.filter_eq_nil_iff.mpr (by simpa using hleft),
        List.filter_eq_self.mpr (by simpa using hright), List.nil_append]
  obtain ⟨hbelow, habove⟩ := hfilter hleft hright
  obtain ⟨hbelow', habove'⟩ := hfilter hleft' hright'
  have hlefts := hperm.filter (p ·)
  have hrights := hperm.filter (¬ p ·)
  rw [hbelow, hbelow'] at hlefts
  rw [habove, habove'] at hrights
  exact ⟨hlefts, hrights⟩

/-- Tidy branches at splits numerically equal over the same points have the same points on either
side, unless all of them coincide. -/
theorem Node.Tidy.parts_perm [LawfulCoordinate N] {source : Source N} {order order' : Array Nat}
    {axis : Nat} {split split' : N} {left left' right right' : Node N}
    (h : (branch axis split left right).Tidy source order)
    (h' : (branch axis split' left' right').Tidy source order') (hle : split ≤ split')
    (hle' : split' ≤ split)
    (hperm : ((branch axis split left right).points order).Perm
      ((branch axis split' left' right').points order')) :
    (left.points order).Perm (left'.points order') ∧
        (right.points order).Perm (right'.points order') ∨
      source.Coincide ((branch axis split left right).points order) := by
  obtain ⟨-, -, hright, -⟩ := h.ordered
  obtain ⟨-, -, hright', -⟩ := h'.ordered
  rcases h.strict.1 with hleft | hcoincide
  · rcases h'.strict.1 with hleft' | hcoincide
    · left
      refine perm_of_parted (p := fun index => ∃ v, source.coordinate? index axis = some v ∧
        v < split) hperm hleft ?_ ?_ ?_
      · rintro index hindex ⟨v, hv, hlt⟩
        obtain ⟨w, hw, hge⟩ := hright index hindex
        obtain rfl := Option.some.inj (hv.symm.trans hw)
        exact Comparison.not_lt hge hlt
      · intro index hindex
        obtain ⟨v, hv, hlt⟩ := hleft' index hindex
        exact ⟨v, hv, Comparison.lt_of_lt_of_le hlt hle'⟩
      · rintro index hindex ⟨v, hv, hlt⟩
        obtain ⟨w, hw, hge⟩ := hright' index hindex
        obtain rfl := Option.some.inj (hv.symm.trans hw)
        exact Comparison.not_lt (Comparison.trans hle hge) hlt
    · exact .inr fun i hi j hj => hcoincide i (hperm.mem_iff.mp hi) j (hperm.mem_iff.mp hj)
  · exact .inr hcoincide

/-- Whether two tidy trees over the same points mirror each other. -/
structure Tree.Mirrors (source : Source N) (tree other : Tree N) : Prop where
  meant : tree.Meant source
  meant' : other.Meant source
  box : tree.box.Alike other.box
  perm : tree.order.toList.Perm other.order.toList
  root : tree.root.Mirrors other.root
  tidy : tree.root.Tidy source tree.order
  tidy' : other.root.Tidy source other.order

section Trees

variable [LawfulCoordinate N] {source : Source N} {options : BuildOptions}
variable {points others : List Nat} {tree tree' : Tree N}

/-- A tree over finite points keeps a tidy one that is meant. -/
theorem Tree.Built.exists_tidy (h : Built source options points none tree)
    (hfinite : ∀ index ∈ points, source.FiniteAt index) (hnodup : points.Nodup)
    (hwords : ∀ index ∈ points, index ≤ maxWord32) :
    ∃ node, Grows source options.leafSize 0 tree.box points node tree.order.toList ∧
      tree = ({ tree with root := node } : Tree N).stored ∧
      ({ tree with root := node } : Tree N).Meant source ∧ node.Tidy source tree.order := by
  obtain ⟨node, hgrows, hroot⟩ := h.grows
  have hall : tree.order.toList = [] ++ tree.order.toList ++ [] := by
    rw [List.nil_append, List.append_nil]
  have hencloses : tree.box.Encloses source points := h.encloses nofun
  have habut := hgrows.abut h.leafSize_ne_zero h.box_dims hencloses hfinite h.points_ne_nil
  rw [Nat.zero_add, ← h.order_perm.length_eq] at habut
  have hsearchable := h.searchable_of_grows hgrows hfinite nofun
  have hnarrow := hgrows.narrow h.leafSize_le
  refine ⟨node, hgrows, by rw [stored, ← hroot], ?_, ?_⟩
  · refine ⟨hsearchable, h.order_perm.nodup_iff.mpr hnodup, fun index hindex => ?_, hnarrow⟩
    exact hwords index (h.order_perm.mem_iff.mp (Array.mem_toList_iff.mpr hindex))
  · exact ⟨hsearchable.inRange, hnarrow, hsearchable.ordered, hgrows.strict hfinite hall rfl,
      habut.lt_and_le⟩

/-- Trees over the same finite points, in boxes alike, keep trees that mirror each other. -/
theorem Tree.Built.exists_mirrors (h : Built source options points none tree)
    (h' : Built source options others none tree')
    (hfinite : ∀ index ∈ points, source.FiniteAt index) (hnodup : points.Nodup)
    (hwords : ∀ index ∈ points, index ≤ maxWord32) (hperm : points.Perm others)
    (hbox : tree.box.Alike tree'.box) :
    ∃ meant meant' : Tree N, tree = meant.stored ∧ tree' = meant'.stored ∧
      meant.Mirrors source meant' := by
  obtain ⟨node, hgrows, hstored, hmeant, htidy⟩ := h.exists_tidy hfinite hnodup hwords
  obtain ⟨node', hgrows', hstored', hmeant', htidy'⟩ :=
    h'.exists_tidy (fun index hindex => hfinite index (hperm.mem_iff.mpr hindex))
      (hperm.nodup_iff.mp hnodup) fun index hindex => hwords index (hperm.mem_iff.mpr hindex)
  have horder := h.order_perm.trans (hperm.trans h'.order_perm.symm)
  have hroot : node.Mirrors node' := hgrows.mirrors hgrows' (.of_perm hfinite hperm) hbox h.box_dims
    (Nat.pos_of_ne_zero h.dims_ne_zero)
  exact ⟨_, _, hstored, hstored', hmeant, hmeant', hbox, horder, hroot, htidy, htidy'⟩

end Trees

end Proximity
