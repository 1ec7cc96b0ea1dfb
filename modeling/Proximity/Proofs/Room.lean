import Mathlib
import Proximity.Proofs.Exhaustive
import Proximity.Proofs.Number.Stretching
import Proximity.Proofs.Ready

/-!
# Searches with room left

While a collector of the nearest neighbors has room, every distance counts. A search then leaves out
a part of the tree only if what its gaps are stretched to is no number, which is so if they are zero
and the slack is infinite, and never otherwise. So with a finite slack as many neighbors are found
as are asked for, or all if there are fewer, and with an infinite one as many of those points that
are not beyond a split at no distance.
-/

namespace Proximity

variable {N D : Type}

namespace Nearest

variable [Distance D] {set : Nearest D} {k : Nat} {seen points : List Nat} {neighbor : Neighbor D}

/-- Whether a collector for any distance has kept as many of the points seen as it has room for. -/
structure Fills (k : Nat) (set : Nearest D) (seen : List Nat) : Prop where
  limit_eq : set.limit = Distance.infinity
  capacity_eq : set.room + set.kept.length = k
  subperm : (set.kept.map Neighbor.index).Subperm seen
  full : set.kept.length < seen.length → set.room = 0

/-- What fills a list does not depend on the order of the points seen. -/
theorem Fills.perm {seen' : List Nat} (h : set.Fills k seen) (hperm : seen.Perm seen') :
    set.Fills k seen' :=
  ⟨h.limit_eq, h.capacity_eq, h.subperm.trans hperm.subperm,
    fun hlt => h.full (hperm.length_eq ▸ hlt)⟩

theorem Fills.length_eq (h : set.Fills k seen) : set.kept.length = min k seen.length := by
  have hcapacity := h.capacity_eq
  have hle := h.subperm.length_le
  rw [List.length_map] at hle
  by_cases hlt : set.kept.length < seen.length
  · have hfull := h.full hlt
    omega
  · omega

/-- While there is room, everything counts. -/
theorem Fills.worst_eq (h : set.Fills k seen) (hroom : set.room ≠ 0) :
    Collector.worst set = (Distance.infinity : D) :=
  (if_pos (Nat.pos_of_ne_zero hroom)).trans h.limit_eq

/-- Without room, more points make no difference. -/
theorem Fills.more (h : set.Fills k seen) (hroom : set.room = 0) (points : List Nat) :
    set.Fills k (points ++ seen) :=
  ⟨h.limit_eq, h.capacity_eq,
    h.subperm.trans (List.sublist_append_right points seen).subperm, fun _ => hroom⟩

/-- A neighbor at any distance is kept, or there is no room for it. -/
theorem Fills.insert [LawfulDistance D] (h : set.Fills k seen) :
    (set.insert neighbor).Fills k (neighbor.index :: seen) := by
  have hcapacity := h.capacity_eq
  rw [Nearest.insert, if_neg (h.limit_eq ▸ LawfulDistance.not_infinity_lt neighbor.distance)]
  by_cases hroom : 0 < set.room
  · have hplace := place_perm neighbor set.kept
    have hlength := hplace.length_eq
    rw [List.length_cons] at hlength
    rw [if_pos hroom]
    refine ⟨h.limit_eq, ?_, ?_, ?_⟩
    · show set.room - 1 + (place neighbor set.kept).length = k
      omega
    · exact (hplace.map Neighbor.index).subperm.trans ((List.subperm_cons _).mpr h.subperm)
    · intro hlt
      have hlt : (place neighbor set.kept).length < seen.length + 1 := hlt
      have hfull := h.full (by omega)
      omega
  · have hfull : set.room = 0 := Nat.eq_zero_of_not_pos hroom
    have hsame : set.Fills k (neighbor.index :: seen) := h.more hfull [neighbor.index]
    rw [if_neg hroom]
    split
    · exact hsame
    · next last rest hkept =>
      split
      · have hplace := place_perm neighbor rest
        rw [hkept] at hcapacity
        have hrest : (rest.map Neighbor.index).Subperm seen := by
          have hsub := h.subperm
          rw [hkept] at hsub
          exact (List.sublist_cons_self _ _).subperm.trans hsub
        refine ⟨h.limit_eq, ?_, ?_, fun _ => hfull⟩
        · show set.room + (place neighbor rest).length = k
          rw [hplace.length_eq]
          exact hcapacity
        · exact (hplace.map Neighbor.index).subperm.trans ((List.subperm_cons _).mpr hrest)
      · exact hsame

end Nearest

section Trees

variable [Coordinate N] [Distance D]

namespace Inquiry

variable {inquiry : Inquiry N D} {k : Nat} {set : Nearest D} {seen : List Nat}

/-- Whether a search leaves out a part of the tree although there is room: its gaps are zero, and
no number once they are stretched without bounds. -/
def drops (inquiry : Inquiry N D) (nearest : D) : Bool :=
  Distance.infinity ≤ inquiry.slack ∧ nearest ≤ 0 ∧ 0 ≤ nearest

/-- The points of a part of the tree that a search with room comes to. -/
def toured (inquiry : Inquiry N D) : Node N → (gaps : List D) → List Nat
  | .leaf first last, _ => (inquiry.tree.order.extract first last).toList
  | .branch axis split left right, gaps =>
    match inquiry.query[axis]?, inquiry.tree.box.sides[axis]? with
    | some v, some side =>
      if v < split then
        let gaps' := gaps.set axis (inquiry.metric.gap axis v ⟨split, side.high⟩)
        inquiry.toured left gaps ++
          if inquiry.drops (Scalar.total gaps') then [] else inquiry.toured right gaps'
      else
        let gaps' := gaps.set axis (inquiry.metric.gap axis v ⟨side.low, split⟩)
        inquiry.toured right gaps ++
          if inquiry.drops (Scalar.total gaps') then [] else inquiry.toured left gaps'
    | _, _ => []

/-- Whether a tree can be searched and all that is made of the query is a number, up to parts of the
tree that are dropped. -/
structure Measured (inquiry : Inquiry N D) : Prop where
  searchable : inquiry.tree.Searchable inquiry.source
  length_eq : inquiry.query.length = inquiry.source.dims
  allWithin : inquiry.metric.AllWithin inquiry.query Distance.infinity
  readsAxes : inquiry.metric.ReadsAxes
  stretch_le {nearest : D} : nearest ≤ Distance.infinity → inquiry.drops nearest = false →
    inquiry.stretch nearest ≤ Distance.infinity
  not_stretch_le {nearest worst : D} : inquiry.drops nearest = true →
    ¬ inquiry.stretch nearest ≤ worst

/-- A distance is found however far it still counts, and exactly if everything counts. -/
theorem Measured.distanceTo (h : inquiry.Measured) {index : Nat}
    (hindex : index ∈ inquiry.tree.order) :
    (∀ worst, ∃ d, inquiry.metric.distanceTo inquiry.query (inquiry.source.read index) worst =
      .ok d) ∧
    inquiry.metric.distanceTo inquiry.query (inquiry.source.read index) Distance.infinity =
      .ok (inquiry.distance index) ∧ inquiry.distance index ≤ Distance.infinity := by
  have hfinite := h.searchable.finite index hindex
  exact ⟨fun worst => h.readsAxes.found _ _ worst fun axis haxis =>
      hfinite.complete.exists_read (haxis.trans_eq h.length_eq),
    h.allWithin.distanceTo_read h.length_eq hfinite⟩

variable [LawfulDistance D]

end Inquiry

end Trees

namespace Index

section

variable [Coordinate N] [Distance D]

/-- The points that count and that a search with room comes to, tree by tree. -/
def toured (index : Index N D) (query : List N) (slack : D) : List Nat :=
  index.parts.flatMap fun part =>
    let inquiry : Inquiry N D :=
      ⟨part.tree, index.source, index.metric, query, slack, part.isLive⟩
    inquiry.live (inquiry.toured part.tree.root inquiry.gaps)

end

variable [Coordinate N] [LawfulCoordinate N] [Storable N] {index : Index N Binary64}
variable {alive : List Nat} {query : List N} {slack : Binary64}

end Index

end Proximity
