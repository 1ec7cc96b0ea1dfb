import Mathlib
import Proximity.Collector.Within
import Proximity.Proofs.Collector.Nearest

/-!
# What is found within a distance

A collector for a distance passes nothing over: it keeps every point seen that lies within its
distance, so its sorted list is the sorted list of these.
-/

namespace Proximity.Within

variable {D : Type} [Distance D]

/-- The distance never changes. -/
@[simp] theorem radius_insert (set : Within D) (neighbor : Neighbor D) :
    (set.insert neighbor).radius = set.radius := by
  rw [insert]
  split <;> rfl

/-- Whether a collector has kept the neighbors within its distance among the points seen. -/
def Follows (distance : Nat → D) (radius : D) (set : Within D) (seen : List Nat) : Prop :=
  set.radius = radius ∧ set.found.Perm (Nearest.found distance radius seen)

/-- A search begins having seen no point. -/
theorem follows_start (distance : Nat → D) (radius : D) :
    Follows distance radius (ofRadius radius) [] := ⟨rfl, .refl _⟩

/-- A search that fills a collector for a distance can be followed point by point. -/
theorem tracks (distance : Nat → D) (radius : D) :
    Tracks distance distance (Follows distance radius) where
  perm := by
    rintro set seen seen' hperm ⟨hradius, hfound⟩
    exact ⟨hradius, hfound.trans ((hperm.map _).filter _)⟩
  offer := by
    rintro set seen index ⟨rfl, hfound⟩ hle
    have hle : distance index ≤ set.radius := hle
    refine ⟨rfl, ?_⟩
    show Follows distance set.radius (set.insert ⟨index, distance index⟩) (index :: seen)
    rw [insert, if_pos hle, Follows, Nearest.found_cons, if_pos hle]
    exact ⟨rfl, hfound.cons _⟩
  skip := by
    rintro set seen index ⟨rfl, hfound⟩ hnot
    have hnot : ¬ distance index ≤ set.radius := hnot
    rw [Follows, Nearest.found_cons, if_neg hnot]
    exact ⟨rfl, hfound⟩

/-- What a collector for a distance lets count never changes. -/
theorem steers (distance : Nat → D) (radius : D) :
    Steers distance (Follows distance radius) where
  toTracks := tracks distance radius
  worst_eq := by
    rintro set set' seen ⟨hradius, -⟩ ⟨hradius', -⟩
    exact hradius.trans hradius'.symm
  le_worst := by
    rintro set seen index - hd
    exact hd.trans_eq (radius_insert set _).symm

/-- However they are listed, the neighbors listed are those found. -/
theorem listed_perm (set : Within D) (sorted : Bool) :
    (if sorted then set.toSorted else set.toList).Perm set.found := by
  split
  · exact (Neighbor.sort_perm _).trans (List.reverse_perm _)
  · exact List.reverse_perm _

/-- The list that is returned does not depend on the order the points were seen in. -/
theorem Follows.toSorted_eq [LawfulDistance D] {distance : Nat → D} {radius : D} {set : Within D}
    {seen : List Nat} (h : Follows distance radius set seen) :
    set.toSorted = Neighbor.sort (Nearest.found distance radius seen) :=
  Neighbor.sort_congr ((List.reverse_perm _).trans h.2)

end Proximity.Within
