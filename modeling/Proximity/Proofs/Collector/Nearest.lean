import Mathlib
import Proximity.Collector.Nearest
import Proximity.Proofs.Neighbor
import Proximity.Proofs.Tree.Search

/-!
# What the nearest neighbors are

A collector parts what was found within its limit into the neighbors it keeps and those it passed
over. None of the latter comes before any of the former, and there are none while there is room.
So the neighbors kept are the first ones of everything found.
-/

namespace Proximity.Nearest

variable {D : Type} [Distance D]

/-- What a collector with room for `k` neighbors knows of what was found within its limit. -/
structure Keeps (set : Nearest D) (k : Nat) (limit : D) (found passed : List (Neighbor D)) :
    Prop where
  limit_eq : set.limit = limit
  capacity_eq : set.room + set.kept.length = k
  falling : set.kept.Pairwise fun a b => b.NotAfter a
  perm : (set.kept ++ passed).Perm found
  notAfter : ∀ a ∈ set.kept, ∀ b ∈ passed, a.NotAfter b
  full : passed ≠ [] → set.room = 0
  within : ∀ a ∈ found, a.distance ≤ limit

variable [LawfulDistance D]

/-- The neighbors kept are the first ones of those found. -/
theorem Keeps.toSorted_eq {set : Nearest D} {k : Nat} {limit : D}
    {found passed : List (Neighbor D)} (h : set.Keeps k limit found passed) :
    set.toSorted = (Neighbor.sort found).take k := by
  have hsort : Neighbor.sort found = set.kept.reverse ++ Neighbor.sort passed := by
    apply Neighbor.sort_eq
    · exact ((List.reverse_perm _).append (Neighbor.sort_perm passed)).trans h.perm
    · refine List.pairwise_append.mpr
        ⟨List.pairwise_reverse.mpr h.falling, Neighbor.sort_pairwise passed, ?_⟩
      intro a ha b hb
      exact h.notAfter a (List.mem_reverse.mp ha) b ((Neighbor.sort_perm passed).mem_iff.mp hb)
  have hcapacity := h.capacity_eq
  rw [hsort, toSorted]
  by_cases hpassed : passed = []
  · rw [hpassed, Neighbor.sort, List.mergeSort_nil, List.append_nil, List.take_of_length_le]
    rw [List.length_reverse]
    omega
  · have hroom := h.full hpassed
    rw [List.take_left' (by rw [List.length_reverse]; omega)]

/-- A collector can be told from what was found within its limit. -/
theorem Keeps.unique {set set' : Nearest D} {k : Nat} {limit : D}
    {found passed passed' : List (Neighbor D)} (h : set.Keeps k limit found passed)
    (h' : set'.Keeps k limit found passed') : set = set' := by
  have hkept : set.kept = set'.kept :=
    List.reverse_injective (h.toSorted_eq.trans h'.toSorted_eq.symm)
  have hroom : set.room = set'.room := by
    have hcapacity := h.capacity_eq
    have hcapacity' := h'.capacity_eq
    rw [hkept] at hcapacity
    omega
  have hlimit : set.limit = set'.limit := h.limit_eq.trans h'.limit_eq.symm
  obtain ⟨_, _, _⟩ := set
  obtain ⟨_, _, _⟩ := set'
  exact (mk.injEq ..).mpr ⟨hlimit, hroom, hkept⟩

omit [LawfulDistance D] in
/-- Putting a neighbor in its place keeps the others. -/
theorem place_perm (neighbor : Neighbor D) (list : List (Neighbor D)) :
    (place neighbor list).Perm (neighbor :: list) := by
  induction list with
  | nil => exact .refl _
  | cons first rest ih =>
    rw [place]
    split
    · exact (ih.cons first).trans (List.Perm.swap ..)
    · exact .refl _

/-- Placing a neighbor keeps the list falling. -/
theorem place_falling {neighbor : Neighbor D} {list : List (Neighbor D)}
    (h : list.Pairwise fun a b => b.NotAfter a) :
    (place neighbor list).Pairwise fun a b => b.NotAfter a := by
  induction list with
  | nil => exact List.pairwise_singleton _ _
  | cons first rest ih =>
    obtain ⟨hfirst, hrest⟩ := List.pairwise_cons.mp h
    rw [place]
    split
    · next hbefore =>
      refine List.pairwise_cons.mpr ⟨?_, ih hrest⟩
      intro other hother
      rcases List.mem_cons.mp ((place_perm _ _).mem_iff.mp hother) with rfl | hother
      · exact Neighbor.notAfter_of_before hbefore
      · exact hfirst other hother
    · next hbefore =>
      have hle := Neighbor.notAfter_of_not_before hbefore
      refine List.pairwise_cons.mpr ⟨?_, h⟩
      intro other hother
      rcases List.mem_cons.mp hother with rfl | hother
      · exact hle
      · exact (hfirst other hother).trans hle

section

variable {set : Nearest D} {k : Nat} {limit : D} {found passed : List (Neighbor D)}
variable {neighbor : Neighbor D}

omit [LawfulDistance D] in
/-- What is kept was found. -/
theorem Keeps.mem_found (h : set.Keeps k limit found passed) {a : Neighbor D} (ha : a ∈ set.kept) :
    a ∈ found := h.perm.mem_iff.mp (List.mem_append_left _ ha)

omit [LawfulDistance D] in
/-- The order in which neighbors were found does not matter. -/
theorem Keeps.rearrange {found' : List (Neighbor D)} (h : set.Keeps k limit found passed)
    (hfound : found.Perm found') : set.Keeps k limit found' passed :=
  ⟨h.limit_eq, h.capacity_eq, h.falling, h.perm.trans hfound, h.notAfter, h.full,
    fun a ha => h.within a (hfound.mem_iff.mpr ha)⟩

omit [LawfulDistance D] in
/-- A neighbor within the limit joins others within the limit. -/
private theorem Keeps.within_cons (h : set.Keeps k limit found passed)
    (hwithin : neighbor.distance ≤ limit) : ∀ a ∈ neighbor :: found, a.distance ≤ limit := by
  intro a ha
  rcases List.mem_cons.mp ha with rfl | ha
  · exact hwithin
  · exact h.within a ha

/-- While there is room, nothing was passed over, and a neighbor is put in its place. -/
private theorem Keeps.admit (h : set.Keeps k limit found passed)
    (hwithin : neighbor.distance ≤ limit) (hroom : 0 < set.room) :
    ({ set with room := set.room - 1, kept := place neighbor set.kept } : Nearest D).Keeps k limit
      (neighbor :: found) [] := by
  have hnone : passed = [] := by
    by_contra hne
    have hfull := h.full hne
    omega
  have hlength := (place_perm neighbor set.kept).length_eq
  have hcapacity := h.capacity_eq
  refine ⟨h.limit_eq, ?_, place_falling h.falling, ?_, ?_, fun hne => absurd rfl hne,
    h.within_cons hwithin⟩
  · show set.room - 1 + (place neighbor set.kept).length = k
    rw [hlength, List.length_cons]
    omega
  · have hperm := h.perm
    rw [hnone, List.append_nil] at hperm
    show (place neighbor set.kept ++ []).Perm _
    rw [List.append_nil]
    exact (place_perm _ _).trans (hperm.cons neighbor)
  · exact fun _ _ _ hb => absurd hb List.not_mem_nil

omit [LawfulDistance D] in
/-- Without room a neighbor may be passed over if it comes after all that are kept. -/
private theorem Keeps.pass (h : set.Keeps k limit found passed)
    (hwithin : neighbor.distance ≤ limit) (hfull : set.room = 0)
    (hafter : ∀ a ∈ set.kept, a.NotAfter neighbor) :
    set.Keeps k limit (neighbor :: found) (neighbor :: passed) := by
  refine ⟨h.limit_eq, h.capacity_eq, h.falling, List.perm_middle.trans (h.perm.cons neighbor), ?_,
    fun _ => hfull, h.within_cons hwithin⟩
  intro a ha b hb
  rcases List.mem_cons.mp hb with rfl | hb
  · exact hafter a ha
  · exact h.notAfter a ha b hb

/-- Without room the worst neighbor gives way to one before it and joins those passed over. -/
private theorem Keeps.displace {last : Neighbor D} {rest : List (Neighbor D)}
    (h : set.Keeps k limit found passed) (hwithin : neighbor.distance ≤ limit)
    (hfull : set.room = 0) (hkept : set.kept = last :: rest)
    (hbefore : neighbor.before last = true) :
    ({ set with kept := place neighbor rest } : Nearest D).Keeps k limit (neighbor :: found)
      (last :: passed) := by
  have hfalling := h.falling
  have hperm := h.perm
  have hcapacity := h.capacity_eq
  rw [hkept] at hfalling hperm hcapacity
  obtain ⟨hlast, hrest⟩ := List.pairwise_cons.mp hfalling
  refine ⟨h.limit_eq, ?_, place_falling hrest, ?_, ?_, fun _ => hfull, h.within_cons hwithin⟩
  · show set.room + (place neighbor rest).length = k
    rw [(place_perm neighbor rest).length_eq]
    exact hcapacity
  · have hmove : (place neighbor rest ++ last :: passed).Perm
        (neighbor :: (last :: rest ++ passed)) :=
      ((place_perm neighbor rest).append_right _).trans (List.perm_middle.cons neighbor)
    exact hmove.trans (hperm.cons neighbor)
  · intro a ha b hb
    have hale : a.NotAfter last := by
      rcases List.mem_cons.mp ((place_perm _ _).mem_iff.mp ha) with rfl | ha
      · exact Neighbor.notAfter_of_before hbefore
      · exact hlast a ha
    rcases List.mem_cons.mp hb with rfl | hb
    · exact hale
    · exact hale.trans (h.notAfter last (hkept ▸ List.mem_cons_self) b hb)

/-- All neighbors kept come before one that the worst of them comes before. -/
private theorem Keeps.notAfter_of_last {last : Neighbor D} {rest : List (Neighbor D)}
    (h : set.Keeps k limit found passed) (hkept : set.kept = last :: rest)
    (hlast : last.NotAfter neighbor) : ∀ a ∈ set.kept, a.NotAfter neighbor := by
  have hfalling := h.falling
  rw [hkept] at hfalling ⊢
  intro a ha
  rcases List.mem_cons.mp ha with rfl | ha
  · exact hlast
  · exact ((List.pairwise_cons.mp hfalling).1 a ha).trans hlast

/-- A collector stays right when a neighbor within its limit is put in. -/
theorem Keeps.insert (h : set.Keeps k limit found passed) (hwithin : neighbor.distance ≤ limit) :
    ∃ passed', (set.insert neighbor).Keeps k limit (neighbor :: found) passed' := by
  rw [Nearest.insert, if_neg (h.limit_eq ▸ Comparison.not_lt hwithin)]
  by_cases hroom : 0 < set.room
  · rw [if_pos hroom]
    exact ⟨[], h.admit hwithin hroom⟩
  · rw [if_neg hroom]
    have hfull : set.room = 0 := by omega
    split
    · next hkept =>
      refine ⟨_, h.pass hwithin hfull fun a ha => ?_⟩
      rw [hkept] at ha
      exact absurd ha List.not_mem_nil
    · next last rest hkept =>
      split
      · next hbefore => exact ⟨_, h.displace hwithin hfull hkept hbefore⟩
      · next hbefore =>
        have hlast := Neighbor.notAfter_of_not_before hbefore
        exact ⟨_, h.pass hwithin hfull (h.notAfter_of_last hkept hlast)⟩

omit [LawfulDistance D] in
/-- While there is room, every distance within the limit counts. -/
theorem Keeps.room_eq_zero (h : set.Keeps k limit found passed) {d : D} (hd : d ≤ limit)
    (hfar : ¬ d ≤ set.worst) : set.room = 0 := by
  by_contra hne
  rw [worst, if_pos (Nat.pos_of_ne_zero hne), h.limit_eq] at hfar
  exact hfar hd

/-- The worst neighbor is nearer than one that is too far. -/
theorem Keeps.last_lt {last : Neighbor D} {rest : List (Neighbor D)}
    (h : set.Keeps k limit found passed) (hwithin : neighbor.distance ≤ limit)
    (hfar : ¬ neighbor.distance ≤ set.worst) (hkept : set.kept = last :: rest) :
    last.distance < neighbor.distance := by
  have hfull := h.room_eq_zero hwithin hfar
  have hlimit := h.within last (h.mem_found (hkept ▸ List.mem_cons_self))
  rw [worst, if_neg (by omega), hkept] at hfar
  exact Comparison.lt_of_not_le (Comparison.left hwithin) (Comparison.left hlimit) hfar

/-- A collector stays right when a neighbor that is too far for it is left out. -/
theorem Keeps.skip (h : set.Keeps k limit found passed) (hwithin : neighbor.distance ≤ limit)
    (hfar : ¬ neighbor.distance ≤ set.worst) :
    set.Keeps k limit (neighbor :: found) (neighbor :: passed) := by
  refine h.pass hwithin (h.room_eq_zero hwithin hfar) ?_
  cases hkept : set.kept with
  | nil => exact fun _ ha => absurd ha List.not_mem_nil
  | cons last rest =>
    have hlt := h.last_lt hwithin hfar hkept
    rw [← hkept]
    exact h.notAfter_of_last hkept (Neighbor.notAfter_of_before (Neighbor.before_of_lt hlt))

end

/-- The neighbors within a limit among some points. -/
def found (distance : Nat → D) (limit : D) (points : List Nat) : List (Neighbor D) :=
  (points.map fun index => ⟨index, distance index⟩).filter (·.distance ≤ limit)

omit [LawfulDistance D] in
/-- A point is found exactly if its distance is within the limit. -/
theorem found_cons (distance : Nat → D) (limit : D) (index : Nat) (points : List Nat) :
    found distance limit (index :: points) =
      if distance index ≤ limit then ⟨index, distance index⟩ :: found distance limit points
      else found distance limit points := by
  rw [found, List.map_cons, List.filter_cons]
  simp only [decide_eq_true_eq]
  rfl

/-- Whether a collector has kept the first neighbors of the points seen. -/
def Follows (distance : Nat → D) (k : Nat) (limit : D) (set : Nearest D) (seen : List Nat) :
    Prop :=
  ∃ passed, set.Keeps k limit (found distance limit seen) passed

omit [LawfulDistance D] in
/-- An empty set has kept and passed nothing. -/
theorem keeps_upTo (k : Nat) (limit : D) : (upTo k limit).Keeps k limit [] [] :=
  ⟨rfl, rfl, .nil, .refl _, fun _ h => absurd h List.not_mem_nil, fun h => absurd rfl h,
    fun _ h => absurd h List.not_mem_nil⟩

omit [LawfulDistance D] in
/-- A search begins having seen no point. -/
theorem follows_start (distance : Nat → D) (k : Nat) (limit : D) :
    Follows distance k limit (upTo k limit) [] := ⟨[], keeps_upTo k limit⟩

omit [LawfulDistance D] in
/-- What still counts is the limit while there is room, and then as far as something kept. -/
theorem Keeps.worst_cases {set : Nearest D} {k : Nat} (hk : 0 < k) {limit : D}
    {found passed : List (Neighbor D)} (h : set.Keeps k limit found passed) :
    0 < set.room ∧ set.worst = limit ∨ ∃ last ∈ set.kept, set.worst = last.distance := by
  by_cases hroom : 0 < set.room
  · exact .inl ⟨hroom, by rw [worst, if_pos hroom, h.limit_eq]⟩
  · rw [worst, if_neg hroom]
    cases hkept : set.kept with
    | nil =>
      have hcapacity := h.capacity_eq
      rw [hkept, List.length_nil] at hcapacity
      omega
    | cons last rest => exact .inr ⟨last, List.mem_cons_self, rfl⟩

/-- Every distance that still counts is within the limit. -/
theorem Keeps.worst_within {set : Nearest D} {k : Nat} (hk : 0 < k) {limit d : D}
    {found passed : List (Neighbor D)} (h : set.Keeps k limit found passed)
    (hd : d ≤ set.worst) : d ≤ limit := by
  rcases h.worst_cases hk with ⟨-, hworst⟩ | ⟨last, hlast, hworst⟩
  · exact hworst ▸ hd
  · exact Comparison.trans (hworst ▸ hd) (h.within last (h.mem_found hlast))

omit [LawfulDistance D] in
/-- Only what is offered is newly kept. -/
theorem mem_insert {set : Nearest D} {neighbor a : Neighbor D}
    (ha : a ∈ (set.insert neighbor).kept) : a = neighbor ∨ a ∈ set.kept := by
  rw [insert] at ha
  split at ha
  · exact .inr ha
  split at ha
  · exact List.mem_cons.mp ((place_perm _ _).mem_iff.mp ha)
  split at ha
  · exact .inr ha
  · next last rest hkept =>
    split at ha
    · rw [hkept]
      exact (List.mem_cons.mp ((place_perm _ _).mem_iff.mp ha)).imp_right (List.mem_cons_of_mem _)
    · exact .inr ha

omit [LawfulDistance D] in
/-- A neighbor offered is kept, or it changes nothing. -/
theorem insert_eq_or_mem (set : Nearest D) (neighbor : Neighbor D) :
    set.insert neighbor = set ∨ neighbor ∈ (set.insert neighbor).kept := by
  have hplace (kept : List (Neighbor D)) : neighbor ∈ place neighbor kept :=
    (place_perm neighbor kept).mem_iff.mpr List.mem_cons_self
  rw [insert]
  split
  · exact .inl rfl
  split
  · exact .inr (hplace _)
  split
  · exact .inl rfl
  · split
    · exact .inr (hplace _)
    · exact .inl rfl

omit [LawfulDistance D] in
/-- An offer makes no room. -/
theorem room_insert_le (set : Nearest D) (neighbor : Neighbor D) :
    (set.insert neighbor).room ≤ set.room := by
  rw [insert]
  split
  · exact le_rfl
  split
  · exact Nat.sub_le ..
  split
  · exact le_rfl
  split <;> exact le_rfl

section

variable {set : Nearest D} {k : Nat} {limit : D} {found passed : List (Neighbor D)}

/-- Nothing that is kept is farther than what still counts. -/
theorem Keeps.not_worst_lt (h : set.Keeps k limit found passed) {a : Neighbor D}
    (ha : a ∈ set.kept) : ¬ set.worst < a.distance := by
  by_cases hroom : 0 < set.room
  · rw [worst, if_pos hroom, h.limit_eq]
    exact Comparison.not_lt (h.within a (h.mem_found ha))
  · have hfalling := h.falling
    rw [worst, if_neg hroom]
    cases hkept : set.kept with
    | nil => exact absurd (hkept ▸ ha) List.not_mem_nil
    | cons last rest =>
      rw [hkept] at ha hfalling
      rcases List.mem_cons.mp ha with rfl | ha
      · exact Comparison.irrefl
      · exact Neighbor.NotAfter.not_lt ((List.pairwise_cons.mp hfalling).1 a ha)

/-- An offer that counts does not let farther ones count. -/
theorem Keeps.not_worst_lt_insert (hk : 0 < k) (h : set.Keeps k limit found passed)
    {neighbor : Neighbor D} (hd : neighbor.distance ≤ set.worst) :
    ¬ set.worst < (set.insert neighbor).worst := by
  obtain ⟨passed', h'⟩ := h.insert (h.worst_within hk hd)
  rcases h'.worst_cases hk with ⟨hroom, hworst⟩ | ⟨last, hlast, hworst⟩
  · have hroom := hroom.trans_le (room_insert_le set neighbor)
    rw [hworst, worst, if_pos hroom, h.limit_eq]
    exact Comparison.irrefl
  · rw [hworst]
    rcases mem_insert hlast with rfl | hlast
    · exact Comparison.not_lt hd
    · exact h.not_worst_lt hlast

/-- A neighbor that counts still counts when it was offered. -/
theorem Keeps.le_worst_insert (hk : 0 < k) (h : set.Keeps k limit found passed)
    {neighbor : Neighbor D} (hd : neighbor.distance ≤ set.worst) :
    neighbor.distance ≤ (set.insert neighbor).worst := by
  have hwithin := h.worst_within hk hd
  obtain ⟨passed', h'⟩ := h.insert hwithin
  rcases set.insert_eq_or_mem neighbor with heq | hmem
  · rwa [heq]
  · have hnot := h'.not_worst_lt hmem
    rcases h'.worst_cases hk with ⟨-, hworst⟩ | ⟨last, hlast, hworst⟩
    · rwa [hworst]
    · rw [hworst] at hnot ⊢
      exact Comparison.le_of_not_lt
        (Comparison.left (h'.within last (h'.mem_found hlast))) (Comparison.left hwithin) hnot

end

section

variable {set : Nearest D} {k : Nat} {limit : D} {found passed left all : List (Neighbor D)}

omit [LawfulDistance D] in
/-- As many neighbors are kept as there is room for, if nothing was left out while there was. -/
theorem Keeps.length_eq (h : set.Keeps k limit found passed) (hperm : (found ++ left).Perm all)
    (hleft : left ≠ [] → set.room = 0) : set.kept.length = min k all.length := by
  have hcapacity := h.capacity_eq
  have hfound := h.perm.length_eq
  have hall := hperm.length_eq
  rw [List.length_append] at hfound hall
  by_cases hroom : set.room = 0
  · omega
  · have hpassed : passed = [] := by_contra fun hne => hroom (h.full hne)
    have hleft : left = [] := by_contra fun hne => hroom (hleft hne)
    rw [hpassed, List.length_nil] at hfound
    rw [hleft, List.length_nil] at hall
    omega

/-- Rank by rank, what is kept comes to the first of all neighbors, if it does so to itself and to
what was left out. -/
theorem Keeps.forall₂_take (h : set.Keeps k limit found passed) (hperm : (found ++ left).Perm all)
    {related : Neighbor D → Neighbor D → Prop}
    (hlater : ∀ {a b c}, related a b → b.NotAfter c → related a c)
    (hself : ∀ a ∈ set.kept, related a a) (hleft : ∀ a ∈ set.kept, ∀ b ∈ left, related a b) :
    List.Forall₂ related (Neighbor.sort set.kept)
      ((Neighbor.sort all).take set.kept.length) := by
  have hkept := Neighbor.sort_perm set.kept
  have hsplit : (Neighbor.sort all).Perm (Neighbor.sort set.kept ++ (passed ++ left)) := by
    rw [← List.append_assoc]
    exact ((Neighbor.sort_perm all).trans hperm.symm).trans
      ((h.perm.symm.trans (hkept.symm.append_right _)).append_right _)
  rw [← hkept.length_eq]
  refine Neighbor.forall₂_take ?_ (Neighbor.sort_pairwise _) (Neighbor.sort_pairwise _) hsplit
    ?_ ?_
  · exact hlater
  · exact fun a ha => hself a (hkept.mem_iff.mp ha)
  · intro a ha b hb
    have ha := hkept.mem_iff.mp ha
    rcases List.mem_append.mp hb with hb | hb
    · exact hlater (hself a ha) (h.notAfter a ha b hb)
    · exact hleft a ha b hb

end

/-- A search that fills a collector can be followed point by point. -/
theorem tracks (distance : Nat → D) {k : Nat} (hk : 0 < k) (limit : D) :
    Tracks distance distance (Follows distance k limit) where
  perm := by
    rintro set seen seen' hperm ⟨passed, h⟩
    have hfound : (found distance limit seen).Perm (found distance limit seen') :=
      (hperm.map _).filter _
    exact ⟨passed, h.rearrange hfound⟩
  offer := by
    rintro set seen index ⟨passed, h⟩ hd
    have hwithin := h.worst_within hk hd
    refine ⟨rfl, ?_⟩
    rw [Follows, found_cons, if_pos hwithin]
    exact h.insert hwithin
  skip := by
    rintro set seen index ⟨passed, h⟩ hd
    rw [Follows, found_cons]
    split
    · next hwithin => exact ⟨_, h.skip hwithin hd⟩
    · exact ⟨passed, h⟩

/-- What a collector of neighbors lets count can be told from the points seen. -/
theorem steers (distance : Nat → D) {k : Nat} (hk : 0 < k) (limit : D) :
    Steers distance (Follows distance k limit) where
  toTracks := tracks distance hk limit
  worst_eq := by
    rintro set set' seen ⟨passed, h⟩ ⟨passed', h'⟩
    rw [h.unique h']
  le_worst := by
    rintro set seen index ⟨passed, h⟩ hd
    have hd : (⟨index, distance index⟩ : Neighbor D).distance ≤ set.worst := hd
    exact h.le_worst_insert hk hd

end Proximity.Nearest
