import Mathlib
import Proximity.Proofs.Tree.Format
import Proximity.Proofs.Tree.Growth

/-!
# Leaves and places

The leaves of a tree are ranges of places in its arrangement. They tile it if every place is in
exactly one leaf. Then, and only then, the points of the leaves are those of the arrangement, as
long as no point stands there twice.
-/

namespace Proximity

variable {N : Type}

namespace Node

/-- The places of the leaves, leaf by leaf from the left. -/
def places : Node N → List Nat
  | .leaf first last => List.range' first (last - first)
  | .branch _ _ left right => left.places ++ right.places

/-- Whether every place of an arrangement of some size is in exactly one leaf. -/
def Tiles (node : Node N) (size : Nat) : Prop := node.places.Perm (List.range size)

variable {node : Node N} {dims : Nat} {order : Array Nat}

theorem Fits.lt_of_mem_places {size : Nat} (h : node.Fits dims size) {place : Nat}
    (hplace : place ∈ node.places) : place < size := by
  induction node with
  | leaf first last =>
    obtain ⟨hfirst, hlast⟩ := h
    rw [places, List.mem_range'_1] at hplace
    omega
  | branch axis split left right ihl ihr =>
    rcases List.mem_append.mp hplace with hplace | hplace
    · exact ihl h.2.1 hplace
    · exact ihr h.2.2 hplace

/-- The points of the leaves are what stands at their places. -/
theorem Fits.points_eq (h : node.Fits dims order.size) :
    node.points order = node.places.map (order.getD · 0) := by
  induction node with
  | leaf first last =>
    obtain ⟨hfirst, hlast⟩ := h
    rw [points, places]
    apply List.ext_getElem
    · rw [Array.length_toList, Array.size_extract, List.length_map, List.length_range',
        Nat.min_eq_left hlast]
    · intro i hi hi'
      rw [List.length_map, List.length_range'] at hi'
      have hplace : first + i < order.size := by omega
      rw [Array.getElem_toList, Array.getElem_extract, List.getElem_map, List.getElem_range',
        Nat.one_mul, Array.getD, dif_pos hplace]
      rfl
  | branch axis split left right ihl ihr =>
    rw [points, places, List.map_append, ihl h.2.1, ihr h.2.2]

private theorem toList_eq (order : Array Nat) :
    order.toList = (List.range order.size).map (order.getD · 0) := by
  apply List.ext_getElem
  · rw [List.length_map, List.length_range, Array.length_toList]
  · intro i hi hi'
    rw [Array.length_toList] at hi
    rw [Array.getElem_toList, List.getElem_map, List.getElem_range, Array.getD, dif_pos hi]
    rfl

/-- Leaves that tile an arrangement have its points. -/
theorem Fits.points_perm (h : node.Fits dims order.size) (htiles : node.Tiles order.size) :
    (node.points order).Perm order.toList := by
  rw [h.points_eq, toList_eq order]
  exact htiles.map _

/-- Leaves with as many points as an arrangement, and none twice, tile it. -/
theorem Fits.tiles (h : node.Fits dims order.size) (hnodup : (node.points order).Nodup)
    (hlength : order.size ≤ (node.points order).length) : node.Tiles order.size := by
  rw [h.points_eq] at hnodup hlength
  rw [List.length_map] at hlength
  refine (hnodup.of_map _).subperm (fun place hplace => List.mem_range.mpr ?_)
    |>.perm_of_length_le ?_
  · exact h.lt_of_mem_places hplace
  · rwa [List.length_range]

/-- The leaves have all points of an arrangement without doubles, each once, exactly if they tile
it. -/
theorem Fits.points_perm_iff (h : node.Fits dims order.size) (hnodup : order.toList.Nodup) :
    (node.points order).Perm order.toList ↔ node.Tiles order.size := by
  refine ⟨fun hperm => h.tiles (hperm.nodup_iff.mpr hnodup) ?_, h.points_perm⟩
  rw [hperm.length_eq, Array.length_toList]

/-- The leaves have as many points as the arrangement, counted from zero and each once, exactly if
the arrangement has no doubles and the leaves tile it. -/
theorem Fits.points_perm_range_iff (h : node.Fits dims order.size)
    (hlt : ∀ index ∈ order, index < order.size) :
    (node.points order).Perm (List.range order.size) ↔
      order.toList.Nodup ∧ node.Tiles order.size := by
  constructor
  · intro hperm
    have htiles : node.Tiles order.size := by
      refine h.tiles (hperm.nodup_iff.mpr List.nodup_range) ?_
      rw [hperm.length_eq, List.length_range]
    exact ⟨((h.points_perm htiles).symm.trans hperm).nodup_iff.mpr List.nodup_range, htiles⟩
  · rintro ⟨hnodup, htiles⟩
    have hrange : order.toList.Perm (List.range order.size) := by
      refine hnodup.subperm (fun index hindex => List.mem_range.mpr ?_) |>.perm_of_length_le ?_
      · exact hlt index (Array.mem_toList_iff.mp hindex)
      · rw [List.length_range, Array.length_toList]
    exact (h.points_perm htiles).trans hrange

end Node

/-- The leaves of a subtree that was grown are its range, place by place. -/
theorem Grows.places_eq [Coordinate N] [LawfulCoordinate N] {source : Source N}
    {leafSize first : Nat} {box : Box N} {points order : List Nat} {node : Node N}
    (h : Grows source leafSize first box points node order) :
    node.places = List.range' first points.length := by
  induction h with
  | leaf _ => rw [Node.places, Nat.add_sub_cancel_left]
  | branch _ hcut _ _ _ _ ihl ihr =>
    have hlength := (Source.cut_perm hcut).length_eq
    rw [List.length_append] at hlength
    rw [Node.places, ihl, ihr, List.range'_append_1, hlength]

/-- The leaves of a built tree tile it, if a word can count its points. -/
theorem Tree.Built.tiles [Coordinate N] [LawfulCoordinate N] {source : Source N}
    {options : BuildOptions} {points : List Nat} {bounds : Option (Box N)} {tree : Tree N}
    (h : Built source options points bounds tree) (hwords : points.length ≤ maxWord32) :
    tree.root.Tiles tree.size := by
  rw [Node.Tiles, (h.grows_root hwords).places_eq, h.size_eq, List.range_eq_range']

end Proximity
