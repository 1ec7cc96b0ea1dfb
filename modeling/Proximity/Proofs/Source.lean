import Mathlib
import Proximity.Proofs.Box
import Proximity.Tree.Split
import Proximity.Proofs.Outcome

/-!
# Reading points

What a source gives for one point is its list of coordinates, and what it gives for some points
along one axis is one value for each. A box around points has the tight side around those values
on every axis.
-/

namespace Proximity

namespace Source

variable {N : Type}

/-- The coordinates of a point, as far as they are there. -/
def coordinates (source : Source N) (index : Nat) : List N :=
  (List.range source.dims).filterMap (source.coordinate? index)

/-- Whether some values are the coordinates of some points along an axis. -/
def Reads (source : Source N) (axis : Nat) (points : List Nat) (values : List N) : Prop :=
  List.Forall₂ (fun index v => source.coordinate? index axis = some v) points values

/-- Whether every coordinate of a point is there. -/
def Complete (source : Source N) (index : Nat) : Prop :=
  ∀ axis < source.dims, (source.coordinate? index axis).isSome

theorem read_eq_ok {source : Source N} {index axis : Nat} {v : N} :
    source.read index axis = .ok v ↔ source.coordinate? index axis = some v := by
  unfold read
  cases source.coordinate? index axis with
  | none => exact ⟨fun h => (nomatch h), fun h => (nomatch h)⟩
  | some w =>
    exact ⟨fun h => congrArg some (Except.ok.inj h), fun h => congrArg _ (Option.some.inj h)⟩

/-- Every coordinate of a complete point can be read. -/
theorem Complete.exists_read {source : Source N} {index axis : Nat} (h : source.Complete index)
    (haxis : axis < source.dims) : ∃ v, source.read index axis = .ok v := by
  obtain ⟨v, hv⟩ := Option.isSome_iff_exists.mp (h axis haxis)
  exact ⟨v, read_eq_ok.mpr hv⟩

theorem reads_iff {source : Source N} {axis : Nat} {points : List Nat} {values : List N} :
    source.Reads axis points values ↔
      List.Forall₂ (fun index v => source.read index axis = .ok v) points values := by
  simp only [Reads, read_eq_ok]

/-- The coordinates along an axis, each beside its point. -/
theorem column_eq_ok {source : Source N} {points : List Nat} {axis : Nat}
    {entries : List (Entry N)} (h : source.column points axis = .ok entries) :
    entries.map Entry.index = points ∧ source.Reads axis points (entries.map Entry.value) := by
  have hall := Outcome.mapM_eq_ok.mp h
  clear h
  induction hall with
  | nil => exact ⟨rfl, .nil⟩
  | cons hfirst _ ih =>
    obtain ⟨v, hv, hentry⟩ := Outcome.bind_eq_ok.mp hfirst
    obtain rfl := Except.ok.inj hentry
    exact ⟨congrArg _ ih.1, .cons (read_eq_ok.mp hv) ih.2⟩

private theorem getElem?_filterMap {α β : Type} {f : α → Option β} {list : List α}
    (h : ∀ a ∈ list, (f a).isSome) (i : Nat) : (list.filterMap f)[i]? = list[i]?.bind f := by
  induction list generalizing i with
  | nil => rfl
  | cons a list ih =>
    obtain ⟨b, hb⟩ := Option.isSome_iff_exists.mp (h a List.mem_cons_self)
    rw [List.filterMap_cons_some hb]
    cases i with
    | zero => exact hb.symm
    | succ i => exact ih (fun a ha => h a (List.mem_cons_of_mem _ ha)) i

/-- A source is read in one way only. -/
theorem Reads.unique {source : Source N} {axis : Nat} {points : List Nat} {values others : List N}
    (h : source.Reads axis points values) (h' : source.Reads axis points others) :
    values = others := by
  induction h generalizing others with
  | nil => exact (List.forall₂_nil_left_iff.mp h').symm
  | cons hfirst _ ih =>
    obtain ⟨w, rest, hw, hrest, rfl⟩ := List.forall₂_cons_left_iff.mp h'
    rw [ih hrest, Option.some.inj (hfirst.symm.trans hw)]

/-- Each entry of a column holds the coordinate of its point. -/
theorem Reads.entry {source : Source N} {axis : Nat} {entries : List (Entry N)}
    (h : source.Reads axis (entries.map Entry.index) (entries.map Entry.value)) :
    ∀ entry ∈ entries, source.coordinate? entry.index axis = some entry.value := by
  rw [Reads, List.forall₂_map_left_iff, List.forall₂_map_right_iff, List.forall₂_same] at h
  exact h

/-- Each point has one of the values. -/
theorem Reads.exists_value {source : Source N} {axis : Nat} {points : List Nat}
    {values : List N} (h : source.Reads axis points values) :
    ∀ index ∈ points, ∃ v ∈ values, source.coordinate? index axis = some v := by
  induction h with
  | nil => exact fun _ h => absurd h List.not_mem_nil
  | cons hfirst _ ih =>
    intro index hindex
    rcases List.mem_cons.mp hindex with rfl | hindex
    · exact ⟨_, List.mem_cons_self, hfirst⟩
    · obtain ⟨v, hv, hread⟩ := ih index hindex
      exact ⟨v, List.mem_cons_of_mem _ hv, hread⟩

/-- Each value belongs to one of the points. -/
theorem Reads.exists_point {source : Source N} {axis : Nat} {points : List Nat}
    {values : List N} (h : source.Reads axis points values) :
    ∀ v ∈ values, ∃ index ∈ points, source.coordinate? index axis = some v := by
  induction h with
  | nil => exact fun _ h => absurd h List.not_mem_nil
  | cons hfirst _ ih =>
    intro v hv
    rcases List.mem_cons.mp hv with rfl | hv
    · exact ⟨_, List.mem_cons_self, hfirst⟩
    · obtain ⟨index, hindex, hread⟩ := ih v hv
      exact ⟨index, List.mem_cons_of_mem _ hindex, hread⟩

/-- One coordinate of a complete point, in its place. -/
theorem getElem?_coordinates {source : Source N} {index axis : Nat} (h : source.Complete index)
    (haxis : axis < source.dims) :
    (source.coordinates index)[axis]? = source.coordinate? index axis := by
  rw [coordinates, getElem?_filterMap (fun a ha => h a (List.mem_range.mp ha)),
    List.getElem?_range haxis]
  rfl

theorem length_coordinates {source : Source N} {index : Nat} (h : source.Complete index) :
    (source.coordinates index).length = source.dims := by
  apply Nat.le_antisymm
  · calc (source.coordinates index).length ≤ (List.range source.dims).length :=
          List.length_filterMap_le _ _
      _ = source.dims := List.length_range
  · by_contra hlt
    have hnone : (source.coordinates index)[(source.coordinates index).length]? = none :=
      List.getElem?_eq_none (Nat.le_refl _)
    rw [getElem?_coordinates h (by omega)] at hnone
    have hsome := h (source.coordinates index).length (by omega)
    rw [hnone] at hsome
    exact Bool.false_ne_true hsome

/-- A coordinate of a complete point is read from its place. -/
theorem read_of_coordinates {source : Source N} {index axis : Nat} {v : N}
    (h : source.Complete index) (hv : (source.coordinates index)[axis]? = some v) :
    source.read index axis = .ok v := by
  have hlt := (List.getElem?_eq_some_iff.mp hv).1
  rw [length_coordinates h] at hlt
  rw [getElem?_coordinates h hlt] at hv
  exact read_eq_ok.mpr hv

/-- What is read of a point are its coordinates, one for each axis. -/
theorem point_eq_ok {source : Source N} {index : Nat} {point : List N}
    (h : source.point index = .ok point) :
    point.length = source.dims ∧
      ∀ axis v, point[axis]? = some v → source.read index axis = .ok v := by
  have hall := Outcome.mapM_eq_ok.mp h
  refine ⟨hall.length_eq.symm.trans List.length_range, ?_⟩
  intro axis v hv
  obtain ⟨hlt, rfl⟩ := List.getElem?_eq_some_iff.mp hv
  have hread := hall.get (hall.length_eq ▸ hlt) hlt
  rwa [List.get_eq_getElem, List.getElem_range] at hread

variable [Coordinate N]

/-- A tight box has the tight side around the coordinates on every axis. -/
theorem boxAround_eq_ok {source : Source N} {points : List Nat} {box : Box N}
    (h : source.boxAround points = .ok box) :
    box.dims = source.dims ∧
      ∀ axis < source.dims, ∃ values, source.Reads axis points values ∧
        box.sides[axis]? = some (Side.around values) := by
  obtain ⟨sides, hsides, hbox⟩ := Outcome.bind_eq_ok.mp h
  obtain rfl := Except.ok.inj hbox
  have hall := Outcome.mapM_eq_ok.mp hsides
  have hlength : sides.length = source.dims := hall.length_eq.symm.trans List.length_range
  refine ⟨hlength, ?_⟩
  intro axis haxis
  have hlt : axis < sides.length := by omega
  have hfold := hall.get (i := axis) (by rwa [List.length_range]) hlt
  obtain ⟨values, hread, hside⟩ := Outcome.foldlM_eq_ok.mp hfold
  simp only [List.get_eq_getElem, List.getElem_range] at hread hside
  refine ⟨values, reads_iff.mpr hread, ?_⟩
  rw [List.getElem?_eq_getElem hlt, hside]
  rfl

end Source

end Proximity
