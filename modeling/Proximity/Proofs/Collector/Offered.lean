import Mathlib
import Proximity.Proofs.Collector.Nearest
import Proximity.Proofs.Coordinate.Instances

/-!
# Offers in any order

A search offers neighbors in the order in which it comes upon them. Unless a distance is unordered,
that order does not matter: after any offers a collector keeps the first of those within its limit,
as many as it has room for, and what still counts never becomes farther.
-/

namespace Proximity.Nearest

variable {D : Type} [Distance D]

/-- A collector with room for `k` neighbors up to a distance after some were offered to it. -/
def fill (k : Nat) (limit : D) (offers : List (Neighbor D)) : Nearest D :=
  offers.foldl insert (upTo k limit)

variable {set : Nearest D} {k : Nat} {limit : D} {found passed : List (Neighbor D)}
variable {neighbor : Neighbor D}

/-- Fewer neighbors than `k` are kept exactly while there is room. -/
theorem Keeps.size_lt_iff (h : set.Keeps k limit found passed) : set.size < k ↔ 0 < set.room := by
  have hcapacity := h.capacity_eq
  rw [size]
  omega

/-- What still counts can be told from the neighbors kept. -/
theorem Keeps.worst_eq (h : set.Keeps k limit found passed) :
    set.worst = if set.size < k then limit
      else (set.toSorted[k - 1]?).elim Distance.negInfinity Neighbor.distance := by
  have hcapacity := h.capacity_eq
  simp only [h.size_lt_iff, worst, h.limit_eq]
  split
  · rfl
  next hroom =>
  rw [toSorted]
  cases hkept : set.kept with
  | nil => rfl
  | cons last rest =>
    -- The worst of the `k` neighbors is the last one in order.
    rw [hkept, List.length_cons] at hcapacity
    rw [List.reverse_cons, show k - 1 = rest.reverse.length by rw [List.length_reverse]; omega,
      List.getElem?_concat_length]
    rfl

/-- A collector without room for any neighbor takes none. -/
theorem Keeps.insert_of_zero (h : set.Keeps 0 limit found passed) (neighbor : Neighbor D) :
    set.insert neighbor = set := by
  have hcapacity := h.capacity_eq
  have hkept : set.kept = [] := List.eq_nil_of_length_eq_zero (by omega)
  rw [Nearest.insert, if_neg (show ¬ 0 < set.room by omega), hkept]
  exact ite_self set

variable [LawfulDistance D]

/-- What is compared with distances is ordered. -/
theorem Keeps.worst_self (h : set.Keeps k limit found passed) (hlimit : limit ≤ limit)
    (hbottom : (Distance.negInfinity : D) ≤ Distance.negInfinity) : set.worst ≤ set.worst := by
  by_cases hroom : 0 < set.room
  · rw [worst, if_pos hroom, h.limit_eq]
    exact hlimit
  · rw [worst, if_neg hroom]
    cases hkept : set.kept with
    | nil => exact hbottom
    | cons last rest =>
      exact Comparison.left (h.within last (h.mem_found (hkept ▸ List.mem_cons_self)))

/-- An offer that is too far changes nothing. -/
theorem Keeps.insert_of_far (h : set.Keeps k limit found passed)
    (hwithin : neighbor.distance ≤ limit) (hfar : ¬ neighbor.distance ≤ set.worst) :
    set.insert neighbor = set := by
  have hfull := h.room_eq_zero hwithin hfar
  rw [Nearest.insert, if_neg (h.limit_eq ▸ Comparison.not_lt hwithin), if_neg (by omega)]
  cases hkept : set.kept with
  | nil => rfl
  | cons last rest =>
    have hafter : ¬ neighbor.before last = true := fun hbefore =>
      (Neighbor.notAfter_of_before hbefore).not_lt (h.last_lt hwithin hfar hkept)
    exact if_neg hafter

/-- An offer beyond the limit changes nothing. -/
theorem Keeps.insert_of_beyond (h : set.Keeps k limit found passed) (hlimit : limit ≤ limit)
    (hself : neighbor.distance ≤ neighbor.distance) (hbeyond : ¬ neighbor.distance ≤ limit) :
    set.insert neighbor = set := by
  rw [Nearest.insert, if_pos]
  exact h.limit_eq ▸ Comparison.lt_of_not_le hself hlimit hbeyond

/-- No offer lets farther ones count. -/
theorem Keeps.not_worst_raised (h : set.Keeps k limit found passed) (hlimit : limit ≤ limit)
    (hself : neighbor.distance ≤ neighbor.distance) :
    ¬ set.worst < (set.insert neighbor).worst := by
  obtain rfl | hk := Nat.eq_zero_or_pos k
  · rw [h.insert_of_zero neighbor]
    exact Comparison.irrefl
  by_cases hwithin : neighbor.distance ≤ limit
  · by_cases hnear : neighbor.distance ≤ set.worst
    · exact h.not_worst_lt_insert hk hnear
    · rw [h.insert_of_far hwithin hnear]
      exact Comparison.irrefl
  · rw [h.insert_of_beyond hlimit hself hwithin]
    exact Comparison.irrefl

/-- An offer counts if it is within the limit, and otherwise changes nothing. -/
theorem Keeps.offer (h : set.Keeps k limit found passed) (hlimit : limit ≤ limit)
    (hself : neighbor.distance ≤ neighbor.distance) : ∃ passed',
      (set.insert neighbor).Keeps k limit (found ++ [neighbor].filter (·.distance ≤ limit))
        passed' := by
  by_cases hwithin : neighbor.distance ≤ limit
  · obtain ⟨passed', h'⟩ := h.insert hwithin
    refine ⟨passed', h'.rearrange ?_⟩
    rw [List.filter_singleton, decide_eq_true hwithin]
    exact (List.perm_append_singleton neighbor found).symm
  · refine ⟨passed, ?_⟩
    rw [h.insert_of_beyond hlimit hself hwithin, List.filter_singleton, decide_eq_false hwithin]
    exact (List.append_nil found).symm ▸ h

/-- After any offers a collector has kept the first of those within its limit. -/
theorem keeps_fill (k : Nat) (hlimit : limit ≤ limit) {offers : List (Neighbor D)}
    (hoffers : ∀ offer ∈ offers, offer.distance ≤ offer.distance) :
    ∃ passed, (fill k limit offers).Keeps k limit (offers.filter (·.distance ≤ limit)) passed := by
  induction offers using List.reverseRecOn with
  | nil => exact ⟨[], keeps_upTo k limit⟩
  | append_singleton offers last ih =>
    obtain ⟨passed, h⟩ := ih fun offer hoffer => hoffers offer (List.mem_append_left _ hoffer)
    rw [fill, List.foldl_concat, List.filter_append]
    exact h.offer hlimit (hoffers last List.mem_concat_self)

/-- Whatever distances are offered, unless they are unordered, a collector keeps the first of the
neighbors within its limit, as many as it has room for, and so the same in whatever order they are
offered. What still counts is the limit while there is room, and else the farthest distance kept;
no further offer raises it. -/
theorem fill_sorts (k : Nat) {limit : Binary64} (hlimit : limit.isNaN = false)
    {offers : List (Neighbor Binary64)} (hoffers : ∀ offer ∈ offers, offer.distance.isNaN = false) :
    (fill k limit offers).toSorted =
        (Neighbor.sort (offers.filter (·.distance ≤ limit))).take k ∧
    (fill k limit offers).size = min k (offers.filter (·.distance ≤ limit)).length ∧
    (∀ others, others.Perm offers →
      (fill k limit others).toSorted = (fill k limit offers).toSorted) ∧
    (fill k limit offers).worst = (if (fill k limit offers).size < k then limit
      else ((fill k limit offers).toSorted[k - 1]?).elim .negInfinity Neighbor.distance) ∧
    ∀ next : Neighbor Binary64, next.distance.isNaN = false →
      ((fill k limit offers).insert next).worst ≤ (fill k limit offers).worst := by
  have hself {x : Binary64} (hx : x.isNaN = false) : x ≤ x :=
    (Binary64.le_iff_signed x x).mpr ⟨hx, hx, le_rfl⟩
  have hlimit' : limit ≤ limit := hself hlimit
  have hkeeps {others : List (Neighbor Binary64)} (hperm : others.Perm offers) :
      ∃ passed, (fill k limit others).Keeps k limit (others.filter (·.distance ≤ limit)) passed :=
    keeps_fill k hlimit' fun offer hoffer => hself (hoffers offer (hperm.mem_iff.mp hoffer))
  obtain ⟨passed, h⟩ := hkeeps (.refl offers)
  refine ⟨h.toSorted_eq, ?_, fun others hperm => ?_, h.worst_eq, fun next hnext => ?_⟩
  · exact h.length_eq (List.append_nil _ ▸ .refl _) (absurd rfl)
  · obtain ⟨passed', h'⟩ := hkeeps hperm
    rw [h.toSorted_eq, h'.toSorted_eq, Neighbor.sort_congr (hperm.filter _)]
  · obtain ⟨passed', h'⟩ := h.offer hlimit' (hself hnext)
    have hbottom : (Distance.negInfinity : Binary64) ≤ Distance.negInfinity := by decide
    exact Comparison.le_of_not_lt (h.worst_self hlimit' hbottom) (h'.worst_self hlimit' hbottom)
      (h.not_worst_raised hlimit' (hself hnext))

/-- Of five offers, one of them beyond the limit and one made twice, the first two are kept, also if
they come the other way round. -/
theorem fill_five :
    Binary64.isNaN 1 = false ∧
    (∀ offer ∈ [⟨2, 1⟩, ⟨3, .infinity⟩, ⟨5, 0⟩, ⟨4, -0⟩, ⟨5, 0⟩],
      (offer : Neighbor Binary64).distance.isNaN = false) ∧
    (fill 2 1 [⟨2, 1⟩, ⟨3, .infinity⟩, ⟨5, 0⟩, ⟨4, -0⟩, ⟨5, 0⟩]).toSorted =
      [(⟨4, -0⟩ : Neighbor Binary64), ⟨5, 0⟩] ∧
    (fill 2 1 [⟨5, 0⟩, ⟨4, -0⟩, ⟨5, 0⟩, ⟨3, .infinity⟩, ⟨2, 1⟩]).toSorted =
      [(⟨4, -0⟩ : Neighbor Binary64), ⟨5, 0⟩] ∧
    (fill 2 (1 : Binary64) [⟨2, 1⟩, ⟨3, .infinity⟩, ⟨5, 0⟩, ⟨4, -0⟩, ⟨5, 0⟩]).worst = 0 := by
  have hlimit : Binary64.isNaN 1 = false := by decide
  have hoffers : ∀ offer ∈ [⟨2, 1⟩, ⟨3, .infinity⟩, ⟨5, 0⟩, ⟨4, -0⟩, ⟨5, 0⟩],
      (offer : Neighbor Binary64).distance.isNaN = false := by decide
  obtain ⟨hsorted, -, horder, hworst, -⟩ := fill_sorts 2 hlimit hoffers
  have hsort : Neighbor.sort ([⟨2, 1⟩, ⟨3, .infinity⟩, ⟨5, 0⟩, ⟨4, -0⟩, ⟨5, 0⟩].filter
      fun offer : Neighbor Binary64 => offer.distance ≤ 1) =
      [⟨4, -0⟩, ⟨5, 0⟩, ⟨5, 0⟩, ⟨2, 1⟩] := by
    refine Neighbor.sort_eq (by decide) ?_
    unfold Neighbor.NotAfter
    decide
  have hfirst := congrArg (List.take 2) hsort
  refine ⟨hlimit, hoffers, hsorted.trans hfirst, ?_, ?_⟩
  · exact (horder _ (List.reverse_perm _)).trans (hsorted.trans hfirst)
  · rw [hworst, hsorted, hfirst]
    rfl

end Proximity.Nearest
