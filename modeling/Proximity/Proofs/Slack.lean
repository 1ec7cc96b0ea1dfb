import Mathlib
import Proximity.Proofs.Additive
import Proximity.Proofs.Contract

/-!
# Searching with slack

With a slack `ε` a part of a tree is left out once `1 + ε` times its bound is too far. So a point
that was never offered is too far itself after its distance is stretched by that factor. What is
found within a radius then has all points that are within it after being stretched, and the nearest
neighbors found are rank by rank at most that factor farther than the true ones. Arithmetic is
exact, and no distance is negative.
-/

namespace Proximity

section Collectors

variable {D : Type} [Distance D] [LawfulDistance D]

/-- A collector of the nearest neighbors is steady, however it came about. -/
theorem Nearest.steady {k : Nat} (hk : 0 < k) (limit : D) :
    Steady fun set : Nearest D => ∃ found passed, set.Keeps k limit found passed where
  keeps := by
    rintro set distance index ⟨found, passed, h⟩ hd
    exact ⟨_, h.insert (h.worst_within hk hd)⟩
  more _ _ := rfl
  not_lt := by
    rintro set distance index ⟨found, passed, h⟩ hd
    exact h.not_worst_lt_insert hk hd

/-- It has kept the first of what it was offered. -/
theorem Nearest.keeps_of_offers {k : Nat} (hk : 0 < k) {limit : D} {log : List (Neighbor D)}
    {set : Nearest D} (h : Offers (Nearest.upTo k limit) log set) :
    ∃ passed, set.Keeps k limit log passed := by
  induction h with
  | none => exact ⟨[], Nearest.keeps_upTo k limit⟩
  | offer _ hd ih =>
    obtain ⟨passed, hkeeps⟩ := ih
    exact hkeeps.insert (hkeeps.worst_within hk hd)

/-- A collector for a distance is steady. -/
theorem Within.steady (radius : D) : Steady fun set : Within D => set.radius = radius where
  keeps hradius _ := (Within.radius_insert _ _).trans hradius
  more _ _ := rfl
  not_lt {set distance index} _ _ := by
    show ¬ set.radius < (set.insert ⟨index, distance⟩).radius
    rw [Within.radius_insert]
    exact Comparison.irrefl

omit [LawfulDistance D] in
/-- It has kept all that it was offered, and all of that is within the distance. -/
theorem Within.found_of_offers {radius : D} {log : List (Neighbor D)} {set : Within D}
    (h : Offers (Within.ofRadius radius) log set) :
    set.radius = radius ∧ set.found = log ∧ ∀ neighbor ∈ log, neighbor.distance ≤ radius := by
  induction h with
  | none => exact ⟨rfl, rfl, fun _ h => absurd h List.not_mem_nil⟩
  | @offer log set neighbor _ hd ih =>
    obtain ⟨hradius, rfl, hall⟩ := ih
    have hle : neighbor.distance ≤ set.radius := hd
    have hinsert : (Collector.offer set neighbor.distance neighbor.index).1 =
        ⟨set.radius, neighbor :: set.found⟩ := if_pos hle
    rw [hinsert]
    exact ⟨hradius, rfl, List.forall_mem_cons.mpr ⟨hradius ▸ hle, hall⟩⟩

end Collectors

section Exact

namespace SearchOptions

variable {options : SearchOptions EReal}

/-- Distances are stretched by one more than the slack. -/
theorem stretch_eq_mul (h : 0 ≤ options.slack) (distance : EReal) :
    options.stretch distance = (1 + options.slack) * distance := by
  rw [stretch]
  split
  · next hexact => rw [le_antisymm hexact h, add_zero, one_mul]
  · exact mul_comm ..

theorem mul_mono (h : 0 ≤ options.slack) {a b : EReal} (hle : a ≤ b) :
    (1 + options.slack) * a ≤ (1 + options.slack) * b :=
  mul_le_mul_of_nonneg_left hle (add_nonneg zero_le_one h)

theorem le_mul_of_nonneg (h : 0 ≤ options.slack) {distance : EReal} (hd : 0 ≤ distance) :
    distance ≤ (1 + options.slack) * distance := by
  have hle := mul_le_mul_of_nonneg_right (le_add_of_nonneg_right h : 1 ≤ 1 + options.slack) hd
  rwa [one_mul] at hle

end SearchOptions

/-- Of two different neighbors, one that is not listed later is nearer or has the lower index. -/
theorem Neighbor.NotAfter.lt_or {a b : Neighbor EReal} (h : a.NotAfter b)
    (hne : a.index ≠ b.index) :
    a.distance < b.distance ∨ a.distance = b.distance ∧ a.index < b.index := by
  rcases lt_trichotomy a.distance b.distance with hlt | heq | hgt
  · exact .inl hlt
  · refine .inr ⟨heq, lt_of_le_of_ne ?_ hne⟩
    have hsame : Distance.order b.distance b.distance = .eq := compare_eq_iff_eq.mpr rfl
    rw [NotAfter, order, heq, hsame] at h
    exact Nat.isLE_compare.mp h
  · exact absurd hgt h.not_lt

/-- Rank by rank, what is kept is at most as far as the first of all neighbors are after being
stretched, if what was left out is too far after being stretched. -/
theorem Nearest.Keeps.le_stretched {options : SearchOptions EReal} (hslack : 0 ≤ options.slack)
    {set : Nearest EReal} {k : Nat} {limit : EReal} {log passed left all : List (Neighbor EReal)}
    (h : set.Keeps k limit log passed) (hperm : (log ++ left).Perm all)
    (hnonneg : ∀ a ∈ set.kept, 0 ≤ a.distance)
    (hfar : ∀ b ∈ left, ¬ (1 + options.slack) * b.distance ≤ set.worst) {rank : Nat}
    {found nearest : Neighbor EReal} (hfound : (Neighbor.sort set.kept)[rank]? = some found)
    (hnearest : (Neighbor.sort all)[rank]? = some nearest) :
    found.distance ≤ (1 + options.slack) * nearest.distance := by
  have hranks : List.Forall₂ (fun a b => a.distance ≤ (1 + options.slack) * b.distance)
      (Neighbor.sort set.kept) ((Neighbor.sort all).take set.kept.length) := by
    refine h.forall₂_take hperm ?_ ?_ ?_
    · intro a b c hab hbc
      exact hab.trans (SearchOptions.mul_mono hslack (not_lt.mp hbc.not_lt))
    · exact fun a ha => SearchOptions.le_mul_of_nonneg hslack (hnonneg a ha)
    · exact fun a ha b hb => (not_lt.mp (h.not_worst_lt ha)).trans (not_le.mp (hfar b hb)).le
  obtain ⟨hrank, rfl⟩ := List.getElem?_eq_some_iff.mp hfound
  obtain ⟨hrank', rfl⟩ := List.getElem?_eq_some_iff.mp hnearest
  have hranked := hranks.get hrank (hranks.length_eq ▸ hrank)
  rwa [List.get_eq_getElem, List.get_eq_getElem, List.getElem_take] at hranked

end Exact

section Bytes

noncomputable instance byteWiden : Widen UInt8 EReal := ⟨fun v => ((v.toNat : ℝ) : EReal)⟩

/-- Messages give the whole part of a number. -/
noncomputable instance wholePart : ToString EReal := ⟨fun x => toString ⌊x.toReal⌋⟩

/-- The absolute differences of bytes add up. -/
theorem additive_manhattan_byte : (Metric.manhattan : Metric UInt8 EReal).Additive :=
  Metric.additive_manhattan (fun _ => rfl) fun h => Nat.cast_le.mpr (UInt8.le_iff_toNat_le.mp h)

/-- The index of the tree over four bytes, with exact absolute differences. -/
noncomputable def byteIndex : Index UInt8 EReal :=
  Index.ofTree byteTree byteSource Metric.manhattan

theorem ready_byteIndex : byteIndex.Ready [0, 1, 2, 3] := by
  have htree : Tree.ofSource byteSource ⟨2, none⟩ = .ok byteTree := by decide +kernel
  exact .tree Metric.manhattan htree finite_byteSource covered_byteSource

end Bytes

section Queries

variable {N : Type} [Coordinate N] [LawfulCoordinate N] [Storable N]
variable {index : Index N EReal} {alive : List Nat} {query : List N}
variable {options : SearchOptions EReal}

/-- With slack a query leaves out no point that is near enough after being stretched. -/
theorem Index.Ready.thorough [ToString EReal] (h : index.Ready alive)
    (hdistance : ∀ i ∈ alive, 0 ≤ index.distance query i)
    (hslack : 0 ≤ options.slack) (hleaves : options.maxLeaves = none) :
    index.Thorough query options where
  valid := if_pos hslack
  maxLeaves := hleaves
  stretch_le {a b} hle := by
    rw [SearchOptions.stretch_eq_mul hslack, SearchOptions.stretch_eq_mul hslack]
    exact SearchOptions.mul_mono hslack hle
  le_reach i hi := by
    rw [reach, SearchOptions.stretch_eq_mul hslack]
    exact SearchOptions.le_mul_of_nonneg hslack (hdistance i (h.points_perm.mem_iff.mp hi))

/-- A query with slack for the neighbors within a radius lists points that count, none of them
twice, each with its distance and within the radius. It lists all points that are within it after
being stretched, so without slack exactly the points within it. It can only be lost, in a tree over
more points than a word can count. -/
theorem Index.Ready.within_slack [ToString EReal] (h : index.Ready alive)
    (hquery : query.length = index.dims) (hbounds : index.metric.Bounds query)
    (hdistance : ∀ i ∈ alive, 0 ≤ index.metric.distance query (index.source.coordinates i))
    {radius : EReal} (hradius : 0 ≤ radius) (hslack : 0 ≤ options.slack)
    (hleaves : options.maxLeaves = none) :
    (∃ list, index.within query radius options = .ok list ∧
      (list.map Neighbor.index).Nodup ∧
      (∀ neighbor ∈ list, neighbor.index ∈ alive ∧ neighbor.distance =
          index.metric.distance query (index.source.coordinates neighbor.index) ∧
        neighbor.distance ≤ index.metric.ofRadius radius) ∧
      (∀ i ∈ alive, (1 + options.slack) *
          index.metric.distance query (index.source.coordinates i) ≤ index.metric.ofRadius radius →
        i ∈ list.map Neighbor.index) ∧
      (options.sorted = true → list.Pairwise fun a b =>
        a.distance < b.distance ∨ a.distance = b.distance ∧ a.index < b.index) ∧
      (options.slack = 0 → ∀ i, i ∈ list.map Neighbor.index ↔ i ∈ alive ∧
        index.metric.distance query (index.source.coordinates i) ≤
          index.metric.ofRadius radius)) ∨
    index.Lost (index.within query radius options) := by
  have hrange : requireRadius radius = .ok () := if_pos hradius
  have hstart : (Within.ofRadius (index.metric.ofRadius radius)).radius =
    index.metric.ofRadius radius := rfl
  rw [within, hrange, Outcome.ok_bind]
  refine (h.find_records hquery hbounds (h.thorough hdistance hslack hleaves)
    (Within.steady (index.metric.ofRadius radius)) hstart).imp ?_ (·.bind _)
  rintro ⟨⟨set, log⟩, -, hfind, hrecords⟩
  obtain ⟨hlimit, hfound, hnear⟩ := Within.found_of_offers hrecords.offers
  have hall (i) (hi : i ∈ alive) (hreach : (1 + options.slack) * index.distance query i ≤
      index.metric.ofRadius radius) : i ∈ log.map Neighbor.index := by
    by_contra hnever
    refine hrecords.not_reach_le hi hnever ?_
    rw [reach, SearchOptions.stretch_eq_mul hslack]
    exact hreach.trans_eq hlimit.symm
  have hlist := (set.listed_perm options.sorted).trans (.of_eq hfound)
  have hmem (i : Nat) := (hlist.map Neighbor.index).mem_iff (a := i)
  have hnodup := (hlist.map Neighbor.index).nodup_iff.mpr (hrecords.nodup h.nodup)
  refine ⟨_, by rw [hfind, Outcome.ok_bind]; rfl, hnodup, ?_,
    fun i hi hreach => (hmem i).mpr (hall i hi hreach), ?_, ?_⟩
  · intro neighbor hneighbor
    have hneighbor := hlist.mem_iff.mp hneighbor
    exact ⟨hrecords.mem_seen hneighbor, hrecords.exact _ hneighbor, hnear _ hneighbor⟩
  · intro hsorted
    rw [if_pos hsorted] at hnodup ⊢
    exact (Neighbor.sort_pairwise _).imp₂ (fun _ _ h hne => h.lt_or hne)
      (List.pairwise_map.mp hnodup)
  · intro hzero i
    rw [hmem]
    constructor
    · intro hi
      obtain ⟨neighbor, hneighbor, rfl⟩ := List.mem_map.mp hi
      exact ⟨hrecords.mem_seen hneighbor,
        (hrecords.exact _ hneighbor).symm.trans_le (hnear _ hneighbor)⟩
    · rintro ⟨hi, hle⟩
      refine hall i hi ?_
      rw [hzero, add_zero, one_mul]
      exact hle

/-- With a slack of one, a byte within half of a radius of 6 is listed. -/
theorem within_slack_bytes : byteIndex.Ready [0, 1, 2, 3] ∧ byteIndex.metric.Bounds [0] ∧
    ∃ list, byteIndex.within [0] 6 ⟨1, true, none⟩ = .ok list ∧
      (list.map Neighbor.index).Nodup ∧ 0 ∈ list.map Neighbor.index ∧
      (list.Pairwise fun a b =>
        a.distance < b.distance ∨ a.distance = b.distance ∧ a.index < b.index) := by
  have hbounds : byteIndex.metric.Bounds [0] := additive_manhattan_byte.bounds [0]
  have hslack : (0 : EReal) ≤ (⟨1, true, none⟩ : SearchOptions EReal).slack := zero_le_one
  have hradius : (0 : EReal) ≤ 6 := by norm_num
  obtain ⟨list, hlist, hnodup, -, hall, hsorted, -⟩ :=
    (ready_byteIndex.within_slack rfl hbounds
      (fun i _ => additive_manhattan_byte.distance_nonneg [0] _) hradius hslack rfl).resolve_right
      fun hlost => ready_byteIndex.not_overfull (by decide) hlost.1
  refine ⟨ready_byteIndex, hbounds, list, hlist, hnodup, hall 0 (by decide) ?_, hsorted rfl⟩
  show (1 + 1 : EReal) * (0 + Scalar.abs ((((0 : UInt8).toNat : ℝ) : EReal) -
    (((3 : UInt8).toNat : ℝ) : EReal))) ≤ 6
  rw [Metric.abs_sub_coe, zero_add, ← EReal.coe_one, ← EReal.coe_add, ← EReal.coe_mul]
  exact EReal.coe_le_coe_iff.mpr (by norm_num [show (3 : UInt8).toNat = 3 from rfl])

/-- A query with slack for the `k` nearest neighbors lists `k` different points that count, or all
of them if they are fewer, each with its distance. Rank by rank, what it lists is at most as far as
the true nearest neighbor after being stretched. It can only be lost, in a tree over more points
than a word can count. -/
theorem Index.Ready.nearestWith_slack [ToString EReal] (h : index.Ready alive)
    (hquery : query.length = index.dims) (hbounds : index.metric.Bounds query)
    (hdistance : ∀ i ∈ alive, 0 ≤ index.metric.distance query (index.source.coordinates i))
    {k : Nat} (hk : 1 ≤ k) (hslack : 0 ≤ options.slack) (hleaves : options.maxLeaves = none) :
    (∃ list, index.nearestWith query k options = .ok list ∧
      list.length = min k alive.length ∧ (list.map Neighbor.index).Nodup ∧
      (∀ neighbor ∈ list, neighbor.index ∈ alive ∧ neighbor.distance =
        index.metric.distance query (index.source.coordinates neighbor.index)) ∧
      ∀ (rank : Nat) (found nearest : Neighbor EReal),
        (Neighbor.sort list)[rank]? = some found →
        (Neighbor.sort (alive.map fun i => ⟨i,
          index.metric.distance query (index.source.coordinates i)⟩))[rank]? = some nearest →
        found.distance ≤ (1 + options.slack) * nearest.distance) ∨
    index.Lost (index.nearestWith query k options) := by
  have hsome : requireSome k = .ok () := if_neg (by omega)
  rw [nearestWith, hsome, Outcome.ok_bind]
  refine (h.find_records hquery hbounds (h.thorough hdistance hslack hleaves)
    (Nearest.steady hk ⊤) ⟨[], Nearest.follows_start (fun _ => ⊤) k ⊤⟩).imp ?_ (·.bind _)
  rintro ⟨⟨set, log⟩, -, hfind, hrecords⟩
  obtain ⟨passed, hkeeps⟩ := Nearest.keeps_of_offers hk hrecords.offers
  obtain ⟨left, hleft, hfar⟩ := hrecords.exists_left
  have hlist := listNearest_perm set options
  have hfull : left.map (fun i => (⟨i, index.distance query i⟩ : Neighbor EReal)) ≠ [] →
      set.room = 0 := by
    intro hne
    obtain ⟨i, hi⟩ := List.exists_mem_of_ne_nil left fun hnil => hne (congrArg _ hnil)
    exact hkeeps.room_eq_zero le_top (hfar i hi)
  have hfind : index.find (Nearest.ofSize k) query options = .ok set := hfind
  refine ⟨listNearest set options, ?_, ?_, ?_, ?_, ?_⟩
  · rw [hfind]
    rfl
  · rw [hlist.length_eq, hkeeps.length_eq hleft hfull, List.length_map]
  · have hsplit := (hkeeps.perm.map Neighbor.index).nodup_iff.mpr (hrecords.nodup h.nodup)
    rw [List.map_append] at hsplit
    exact (hlist.map Neighbor.index).nodup_iff.mpr (List.nodup_append.mp hsplit).1
  · intro neighbor hneighbor
    have hneighbor := hkeeps.mem_found (hlist.mem_iff.mp hneighbor)
    exact ⟨hrecords.mem_seen hneighbor, hrecords.exact _ hneighbor⟩
  · intro rank found nearest hfound hnearest
    rw [Neighbor.sort_congr hlist] at hfound
    refine hkeeps.le_stretched hslack hleft ?_ ?_ hfound hnearest
    · intro a ha
      have ha := hkeeps.mem_found ha
      rw [hrecords.exact a ha]
      exact hdistance _ (hrecords.mem_seen ha)
    · intro b hb
      obtain ⟨i, hi, rfl⟩ := List.mem_map.mp hb
      rw [← SearchOptions.stretch_eq_mul hslack]
      exact hfar i hi

end Queries

/-- With a slack of one, two bytes are listed, rank by rank at most twice as far as the nearest. -/
theorem nearestWith_slack_bytes : byteIndex.Ready [0, 1, 2, 3] ∧ byteIndex.metric.Bounds [0] ∧
    ∃ list, byteIndex.nearestWith [0] 2 ⟨1, true, none⟩ = .ok list ∧ list.length = 2 ∧
      (list.map Neighbor.index).Nodup ∧ ∀ (rank : Nat) (found nearest : Neighbor EReal),
        (Neighbor.sort list)[rank]? = some found →
        (Neighbor.sort ([0, 1, 2, 3].map fun i => ⟨i,
          byteIndex.metric.distance [0] (byteSource.coordinates i)⟩))[rank]? = some nearest →
        found.distance ≤ (1 + 1) * nearest.distance := by
  have hbounds : byteIndex.metric.Bounds [0] := additive_manhattan_byte.bounds [0]
  have hslack : (0 : EReal) ≤ (⟨1, true, none⟩ : SearchOptions EReal).slack := zero_le_one
  obtain ⟨list, hlist, hlength, hnodup, -, hranks⟩ :=
    (ready_byteIndex.nearestWith_slack rfl hbounds
      (fun i _ => additive_manhattan_byte.distance_nonneg [0] _) one_le_two hslack
      rfl).resolve_right fun hlost => ready_byteIndex.not_overfull (by decide) hlost.1
  exact ⟨ready_byteIndex, hbounds, list, hlist, hlength, hnodup, hranks⟩

end Proximity
