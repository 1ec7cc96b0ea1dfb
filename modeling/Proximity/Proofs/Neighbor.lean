import Mathlib
import Proximity.Neighbor
import Proximity.Proofs.Coordinate.Laws

/-!
# The order of neighbors

Neighbors are totally ordered, by distance first and by index among equals. So a list of them has
one sorted arrangement, whatever order they were found in.
-/

namespace Proximity.Neighbor

variable {D : Type} [Distance D] [LawfulDistance D]

instance : Std.TransCmp (order : Neighbor D → Neighbor D → Ordering) :=
  have : Std.TransCmp (fun a b : Neighbor D => Distance.order a.distance b.distance) :=
    { eq_swap := @fun a b => @Std.OrientedCmp.eq_swap D Distance.order _ a.distance b.distance
      isLE_trans := @fun a b c =>
        @Std.TransCmp.isLE_trans D Distance.order _ a.distance b.distance c.distance }
  inferInstanceAs (Std.TransCmp (compareLex
    (fun a b : Neighbor D => Distance.order a.distance b.distance) (compareOn index)))

instance : Std.LawfulEqCmp (order : Neighbor D → Neighbor D → Ordering) where
  compare_self := Std.ReflCmp.compare_self
  eq_of_compare := by
    intro a b h
    obtain ⟨hdistance, hindex⟩ := Ordering.then_eq_eq.mp h
    have hd := Std.LawfulEqCmp.eq_of_compare hdistance
    have hi := Std.LawfulEqCmp.eq_of_compare hindex
    cases a
    cases b
    exact congrArg₂ Neighbor.mk hi hd

/-- Whether a neighbor is listed before another one or is the same. -/
def NotAfter (a b : Neighbor D) : Prop := (a.order b).isLE = true

omit [LawfulDistance D] in
/-- The executed test is the strict order. -/
theorem before_iff (a b : Neighbor D) : a.before b = true ↔ a.order b = .lt := by
  rw [before, beq_iff_eq]

omit [LawfulDistance D] in
/-- What comes before another neighbor does not come after it. -/
theorem notAfter_of_before {a b : Neighbor D} (h : a.before b = true) : a.NotAfter b := by
  rw [NotAfter, (before_iff a b).mp h]
  rfl

/-- Of two neighbors the one that the other is not before does not come after it. -/
theorem notAfter_of_not_before {a b : Neighbor D} (h : ¬ a.before b = true) : b.NotAfter a := by
  rw [before_iff] at h
  rw [NotAfter, @Std.OrientedCmp.eq_swap _ order]
  cases hab : a.order b with
  | lt => exact absurd hab h
  | eq => rfl
  | gt => rfl

theorem NotAfter.trans {a b c : Neighbor D} (h : a.NotAfter b) (h' : b.NotAfter c) :
    a.NotAfter c := Std.TransCmp.isLE_trans h h'

/-- Any two neighbors can be listed in one order or the other. -/
theorem NotAfter.total (a b : Neighbor D) : a.NotAfter b ∨ b.NotAfter a := by
  by_cases h : a.before b = true
  · exact .inl (notAfter_of_before h)
  · exact .inr (notAfter_of_not_before h)

/-- Neighbors neither of which comes after the other are one. -/
theorem NotAfter.antisymm {a b : Neighbor D} (h : a.NotAfter b) (h' : b.NotAfter a) : a = b :=
  Std.LawfulEqCmp.eq_of_compare (Std.OrientedCmp.isLE_antisymm h h')

/-- What is nearer is listed before. -/
theorem before_of_lt {a b : Neighbor D} (h : a.distance < b.distance) : a.before b = true := by
  rw [before_iff, order, LawfulDistance.order_lt h]
  rfl

/-- What is listed before is not farther. -/
theorem NotAfter.not_lt {a b : Neighbor D} (h : a.NotAfter b) : ¬ b.distance < a.distance := by
  intro hlt
  obtain rfl := h.antisymm (notAfter_of_before (before_of_lt hlt))
  exact Comparison.irrefl hlt

omit [LawfulDistance D] in
/-- Sorting lists the same neighbors. -/
theorem sort_perm (list : List (Neighbor D)) : (sort list).Perm list := List.mergeSort_perm _ _

omit [LawfulDistance D] in
/-- A sorted list of neighbors is about the same points as the list before. -/
theorem map_index_sort (points : List Nat) (distance : Nat → D) :
    ((sort (points.map fun i => ⟨i, distance i⟩)).map index).Perm points := by
  have hperm := (sort_perm (points.map fun i => (⟨i, distance i⟩ : Neighbor D))).map index
  rwa [List.map_map, show index ∘ (fun i => (⟨i, distance i⟩ : Neighbor D)) = id from rfl,
    List.map_id] at hperm

/-- In a sorted list no neighbor comes after a later one. -/
theorem sort_pairwise (list : List (Neighbor D)) : (sort list).Pairwise NotAfter := by
  apply List.pairwise_mergeSort
  · exact fun a b c h h' => NotAfter.trans h h'
  · intro a b
    rw [Bool.or_eq_true]
    exact NotAfter.total a b

/-- There is one sorted arrangement of some neighbors. -/
theorem sort_eq {list sorted : List (Neighbor D)} (hperm : sorted.Perm list)
    (hsorted : sorted.Pairwise NotAfter) : sort list = sorted :=
  ((sort_perm list).trans hperm.symm).eq_of_pairwise
    (fun _ _ _ _ h h' => NotAfter.antisymm h h') (sort_pairwise list) hsorted

/-- Lists of the same neighbors are sorted alike. -/
theorem sort_congr {list list' : List (Neighbor D)} (h : list.Perm list') :
    sort list = sort list' := sort_eq ((sort_perm list').trans h.symm) (sort_pairwise list')

/-- Neighbors that are listed first among some others come to them rank by rank: each is related to
itself and to all others, and a relation carries on to what is listed later. -/
theorem forall₂_take {related : Neighbor D → Neighbor D → Prop}
    (hlater : ∀ {a b c}, related a b → b.NotAfter c → related a c)
    {kept rest all : List (Neighbor D)} (hkept : kept.Pairwise NotAfter)
    (hall : all.Pairwise NotAfter) (hperm : all.Perm (kept ++ rest))
    (hself : ∀ a ∈ kept, related a a) (hrest : ∀ a ∈ kept, ∀ b ∈ rest, related a b) :
    List.Forall₂ related kept (all.take kept.length) := by
  induction kept generalizing all with
  | nil => exact .nil
  | cons a kept ih =>
    obtain ⟨ha, hbelow⟩ := List.pairwise_cons.mp hkept
    cases all with
    | nil => exact absurd hperm.length_eq (by simp)
    | cons first all =>
      obtain ⟨hfirst, hall⟩ := List.pairwise_cons.mp hall
      by_cases hmem : first ∈ rest
      · -- Nothing is listed before `first`, so everything is related to all from there on.
        have hlength := hperm.length_eq
        rw [List.length_append, List.length_cons, List.length_cons] at hlength
        refine List.forall₂_iff_zip.mpr ⟨?_, fun {b c} hzip => ?_⟩
        · rw [List.length_take, List.length_cons, List.length_cons]
          omega
        · obtain ⟨hb, hc⟩ := List.of_mem_zip hzip
          rcases List.mem_cons.mp (List.mem_of_mem_take hc) with rfl | hc
          · exact hrest b hb c hmem
          · exact hlater (hrest b hb first hmem) (hfirst c hc)
      · have hfirst_eq : first = a := by
          have hin := List.mem_append.mp (hperm.mem_iff.mp (List.mem_cons_self (a := first)))
          rcases List.mem_cons.mp (hin.resolve_right hmem) with heq | hin
          · exact heq
          have hain : a ∈ first :: all :=
            hperm.mem_iff.mpr (List.mem_append_left _ List.mem_cons_self)
          rcases List.mem_cons.mp hain with heq | hain
          · exact heq.symm
          · exact (hfirst a hain).antisymm (ha first hin)
        subst hfirst_eq
        refine .cons (hself first List.mem_cons_self) (ih hbelow hall hperm.cons_inv ?_ ?_)
        · exact fun b hb => hself b (List.mem_cons_of_mem _ hb)
        · exact fun b hb => hrest b (List.mem_cons_of_mem _ hb)

end Proximity.Neighbor
