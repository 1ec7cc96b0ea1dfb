import Mathlib
import Proximity.Proofs.Tree.Format
import Proximity.Proofs.Tree.Growth

/-!
# How many nodes a tree has

A cut leaves both parts some points, with one exception: where every coordinate is unordered or
above the range, and some is above, nothing is left of the cut. Along a tight box that never
happens, as the same cut would come again without end. So below the root every leaf has points,
and there are fewer nodes than twice the points. A box known beforehand can add one empty leaf.
-/

namespace Proximity

variable {N : Type} [Coordinate N]

namespace Entry

/-- Whether every value is unordered or above the range, and some value is above. -/
def Beyond (entries : Array (Entry N)) : Prop :=
  (∀ entry ∈ entries, ¬ entry.value ≤ Coordinate.highest) ∧
    ∃ entry ∈ entries, Coordinate.highest < entry.value

variable [LawfulCoordinate N] {side : Side N} {entries ordered : Array (Entry N)}

/-- Nothing lies below a coordinate that is unordered or above the range. -/
theorem Beyond.not_lt (h : Beyond entries) {entry : Entry N} (hentry : entry ∈ entries) (w : N) :
    ¬ entry.value < w := by
  intro hlt
  have habove := Comparison.lt_of_not_le (Comparison.left (Comparison.le hlt))
    (Comparison.right LawfulCoordinate.lowest_le_highest) (h.1 entry hentry)
  exact LawfulCoordinate.not_above habove hlt

/-- A cut along a side has nothing on the left exactly if all values are beyond the range. -/
theorem Slides.blank_iff {result} (h : Slides side entries result) :
    (∃ split, result.2 = some (split, 0)) ↔ Beyond entries := by
  cases h with
  | flat _ hfloor hnone =>
    constructor
    · rintro ⟨split, hsplit⟩
      nomatch hsplit
    · rintro ⟨-, entry, hentry, habove⟩
      exact absurd (Comparison.lt_of_le_of_lt hfloor.le_highest habove) (hnone entry hentry)
  | @up ordered floor split count hperm hfloor _ hlt hsplit hparted =>
    have hzero : count = 0 ↔ ∀ entry ∈ entries, ¬ entry.value < split := by
      simp only [hparted.eq_zero_iff, hperm.mem_iff]
    simp only [Option.some.injEq, Prod.mk.injEq, exists_eq_left', hzero]
    constructor
    · intro hnone
      have habove : Coordinate.highest < split := by
        rcases hfloor.attained with rfl | ⟨entry, hentry, rfl⟩
        · exact hlt
        · exact absurd hlt (hnone entry hentry)
      obtain ⟨entry, hentry, rfl⟩ := hsplit
      refine ⟨?_, entry, hentry, habove⟩
      intro other hother hle
      exact hnone other hother (Comparison.lt_of_le_of_lt hle habove)
    · intro hbeyond entry hentry
      exact hbeyond.not_lt hentry split
  | full _ hceiling hall =>
    constructor
    · rintro ⟨split, hsplit⟩
      nomatch hsplit
    · intro hbeyond
      obtain ⟨entry, hentry, -⟩ := hbeyond.2
      exact absurd (hall entry hentry) (hbeyond.not_lt hentry _)
  | down _ _ hall hne =>
    constructor
    · rintro ⟨split, hsplit⟩
      exact absurd (Prod.mk.inj (Option.some.inj hsplit)).2 hne
    · intro hbeyond
      obtain ⟨entry, hentry, -⟩ := hbeyond.2
      exact absurd (hall entry hentry) (hbeyond.not_lt hentry _)
  | centre hperm hne _ hparted =>
    constructor
    · rintro ⟨split, hsplit⟩
      exact absurd (Prod.mk.inj (Option.some.inj hsplit)).2 hne
    · intro hbeyond
      refine absurd (hparted.eq_zero_iff.mpr ?_) hne
      intro entry hentry
      exact hbeyond.not_lt (hperm.mem_iff.mp hentry) _

/-- Along a side that holds all ordered values, a cut has something on the right. -/
theorem Slides.lt_size {split : N} {count : Nat}
    (h : Slides side entries (ordered, some (split, count)))
    (hholds : ∀ entry ∈ entries, entry.value ≤ entry.value → side.Holds entry.value) :
    count < ordered.size := by
  refine lt_of_le_of_ne h.parted.le_size ?_
  cases h with
  | up hperm _ _ _ hsplit hparted =>
    intro hsize
    obtain ⟨entry, hentry, rfl⟩ := hsplit
    exact Comparison.irrefl (hparted.eq_size_iff.mp hsize entry (hperm.mem_iff.mpr hentry))
  | down hperm hceiling hall hne hparted =>
    intro hsize
    have hbelow := hparted.eq_size_iff.mp hsize
    rcases hceiling.attained with rfl | ⟨entry, hentry, rfl⟩
    · -- All values are below the range, and so is the side: its middle is not above any value.
      have hpos : 0 < ordered.size := by omega
      have hfirst := hbelow ordered[0] (Array.getElem_mem hpos)
      have hentry := hperm.mem_iff.mp (Array.getElem_mem hpos)
      have hlow := (hholds _ hentry (Comparison.left (Comparison.le hfirst))).1
      exact LawfulCoordinate.not_lt_middle side.high _ (Comparison.lt_of_le_of_lt hlow hfirst)
        (hall _ hentry)
    · exact Comparison.irrefl (hbelow entry (hperm.mem_iff.mpr hentry))
  | centre _ _ hne => exact hne

end Entry

/-- Whether the sides of a box hold every ordered coordinate of some points. -/
def Box.Encloses (box : Box N) (source : Source N) (points : List Nat) : Prop :=
  ∀ index ∈ points, ∀ (axis : Nat) (side : Side N) (v : N), box.sides[axis]? = some side →
    source.coordinate? index axis = some v → v ≤ v → side.Holds v

namespace Source

/-- Whether every coordinate along an axis is unordered or above the range, and some is above. -/
def Beyond (source : Source N) (axis : Nat) (points : List Nat) : Prop :=
  (∀ index ∈ points, ∀ v, source.coordinate? index axis = some v →
    ¬ v ≤ Coordinate.highest) ∧
    ∃ index ∈ points, ∃ v, source.coordinate? index axis = some v ∧ Coordinate.highest < v

/-- Whether the longest side of a box has some length and all coordinates are beyond the range. -/
def Lopsided (source : Source N) (box : Box N) (points : List Nat) : Prop :=
  ∃ side, box.sides[box.widest]? = some side ∧ side.low < side.high ∧
    source.Beyond box.widest points

variable {source : Source N} {box tight : Box N} {points rest others : List Nat}

private theorem beyond_iff {axis : Nat} {entries : List (Entry N)}
    (h : source.column points axis = .ok entries) :
    Entry.Beyond entries.toArray ↔ source.Beyond axis points := by
  obtain ⟨hindex, hreads⟩ := column_eq_ok h
  rw [← hindex] at hreads ⊢
  have hentry := hreads.entry
  simp only [Entry.Beyond, Beyond, List.mem_toArray, List.mem_map, forall_exists_index, and_imp,
    forall_apply_eq_imp_iff₂]
  constructor
  · rintro ⟨hall, entry, hmem, habove⟩
    refine ⟨?_, entry.index, ⟨entry, hmem, rfl⟩, entry.value, hentry entry hmem, habove⟩
    intro other hother v hv
    obtain rfl := Option.some.inj ((hentry other hother).symm.trans hv)
    exact hall other hother
  · rintro ⟨hall, _, ⟨entry, hmem, rfl⟩, v, hv, habove⟩
    obtain rfl := Option.some.inj ((hentry entry hmem).symm.trans hv)
    exact ⟨fun other hother => hall other hother _ (hentry other hother), entry, hmem, habove⟩

theorem Beyond.congr {axis : Nat} (h : source.Beyond axis points) (hperm : others.Perm points) :
    source.Beyond axis others := by
  simp only [Beyond, hperm.mem_iff]
  exact h

variable [LawfulCoordinate N]

/-- The box around some points encloses them. -/
theorem boxAround_encloses (h : source.boxAround points = .ok box) :
    box.Encloses source points := by
  obtain ⟨hdims, hsides⟩ := boxAround_eq_ok h
  intro index hindex axis side v hside hv hself
  have haxis : axis < source.dims := hdims ▸ (List.getElem?_eq_some_iff.mp hside).1
  obtain ⟨values, hreads, haround⟩ := hsides axis haxis
  obtain rfl := Option.some.inj (hside.symm.trans haround)
  obtain ⟨w, hw, hread⟩ := hreads.exists_value index hindex
  obtain rfl := Option.some.inj (hread.symm.trans hv)
  exact Side.around_holds hw hself

/-- A tight box around the same points has the same longest side, and cuts them no better. -/
theorem Lopsided.congr (h : source.Lopsided box points) (hperm : others.Perm points)
    (hbox : source.boxAround points = .ok box) (htight : source.boxAround others = .ok tight) :
    source.Lopsided tight others := by
  obtain ⟨hdims, hsides⟩ := boxAround_eq_ok hbox
  obtain ⟨hdims', hsides'⟩ := boxAround_eq_ok htight
  have hboth (axis) (haxis : axis < source.dims) : ∃ side side',
      box.sides[axis]? = some side ∧ tight.sides[axis]? = some side' ∧
      side.low ≤ side'.low ∧ side'.low ≤ side.low ∧
      side.high ≤ side'.high ∧ side'.high ≤ side.high := by
    obtain ⟨values, hreads, hside⟩ := hsides axis haxis
    obtain ⟨values', hreads', hside'⟩ := hsides' axis haxis
    have hsub (v) (hv : v ∈ values') (hself : v ≤ v) : ∃ w ∈ values, w ≤ v ∧ v ≤ w := by
      obtain ⟨index, hindex, hread⟩ := hreads'.exists_point v hv
      obtain ⟨w, hw, hread'⟩ := hreads.exists_value index (hperm.mem_iff.mp hindex)
      exact ⟨v, Option.some.inj (hread'.symm.trans hread) ▸ hw, hself, hself⟩
    have hsub' (v) (hv : v ∈ values) (hself : v ≤ v) : ∃ w ∈ values', w ≤ v ∧ v ≤ w := by
      obtain ⟨index, hindex, hread⟩ := hreads.exists_point v hv
      obtain ⟨w, hw, hread'⟩ := hreads'.exists_value index (hperm.mem_iff.mpr hindex)
      exact ⟨v, Option.some.inj (hread'.symm.trans hread) ▸ hw, hself, hself⟩
    obtain ⟨hlow, hhigh'⟩ := Side.around_le hsub
    obtain ⟨hlow', hhigh⟩ := Side.around_le hsub'
    exact ⟨_, _, hside, hside', hlow, hlow', hhigh, hhigh'⟩
  have hwidest : box.widest = tight.widest := by
    refine Box.widest_congr (List.forall₂_iff_get.mpr ⟨hdims.trans hdims'.symm, ?_⟩)
    intro axis haxis haxis'
    obtain ⟨side, side', hside, hside', hlow, hlow', hhigh, hhigh'⟩ := hboth axis (hdims ▸ haxis)
    rw [List.getElem?_eq_getElem haxis] at hside
    rw [List.getElem?_eq_getElem haxis'] at hside'
    rw [List.get_eq_getElem, List.get_eq_getElem, Option.some.inj hside, Option.some.inj hside']
    exact Side.extent_alike hlow hlow' hhigh hhigh'
  obtain ⟨side, hside, hlt, hbeyond⟩ := h
  have haxis : box.widest < source.dims := hdims ▸ (List.getElem?_eq_some_iff.mp hside).1
  obtain ⟨other, side', hother, hside', -, hlow, hhigh, -⟩ := hboth _ haxis
  obtain rfl := Option.some.inj (hside.symm.trans hother)
  refine ⟨side', hwidest ▸ hside', ?_, hwidest ▸ hbeyond.congr hperm⟩
  exact Comparison.lt_of_le_of_lt hlow (Comparison.lt_of_lt_of_le hlt hhigh)

/-- A cut along the longest side has nothing on the left exactly if the box is lopsided. -/
theorem cutLongest_lopsided_iff {found : Option (Cut N)}
    (h : source.cutLongest box points = .ok (rest, found)) :
    source.Lopsided box points ↔ ∃ cut, found = some cut ∧ cut.below = [] := by
  rcases cutLongest_eq_ok h with ⟨rfl, -, hflat⟩ | ⟨side, entries, hside, hlt, hcolumn, rfl, rfl⟩
  · constructor
    · rintro ⟨side, hside, hlt, -⟩
      exact absurd hlt (hflat side hside)
    · rintro ⟨cut, hcut, -⟩
      nomatch hcut
  have hslides := Entry.slide_slides side entries.toArray
  have hlopsided : source.Lopsided box points ↔
      ∃ split, (Entry.slide side entries.toArray).2 = some (split, 0) := by
    rw [hslides.blank_iff, beyond_iff hcolumn]
    constructor
    · rintro ⟨-, -, -, hbeyond⟩
      exact hbeyond
    · intro hbeyond
      exact ⟨side, hside, hlt, hbeyond⟩
  rw [hlopsided]
  generalize Entry.slide side entries.toArray = result at hslides
  obtain ⟨ordered, found⟩ := result
  simp only [Option.map_eq_some_iff]
  constructor
  · rintro ⟨split, rfl⟩
    exact ⟨_, ⟨(split, 0), rfl, rfl⟩, rfl⟩
  · rintro ⟨_, ⟨⟨split, count⟩, rfl, rfl⟩, hbelow⟩
    have hle := hslides.parted.le_size
    have hlength := congrArg List.length hbelow
    rw [List.length_take, List.length_map, Array.length_toList, List.length_nil] at hlength
    obtain rfl : count = 0 := by omega
    exact ⟨split, rfl⟩

/-- A cut along the longest side of a box around the points has something on the right. -/
theorem cutLongest_above {cut : Cut N}
    (h : source.cutLongest box points = .ok (rest, some cut))
    (hencloses : box.Encloses source points) : cut.above ≠ [] := by
  obtain ⟨hnone, -⟩ | ⟨side, entries, hside, -, hcolumn, rfl, hfound⟩ := cutLongest_eq_ok h
  · nomatch hnone
  obtain ⟨hindex, hreads⟩ := column_eq_ok hcolumn
  rw [← hindex] at hreads
  have hslides := Entry.slide_slides side entries.toArray
  have hholds (entry) (hentry : entry ∈ entries.toArray) (hself : entry.value ≤ entry.value) :
      side.Holds entry.value := by
    have hmem := List.mem_toArray.mp hentry
    exact hencloses entry.index (hindex ▸ List.mem_map_of_mem hmem) _ side _ hside
      (hreads.entry entry hmem) hself
  generalize Entry.slide side entries.toArray = result at hslides hfound
  obtain ⟨ordered, found⟩ := result
  cases found with
  | none => nomatch hfound
  | some found =>
    obtain rfl := Option.some.inj hfound
    have hlt := hslides.lt_size hholds
    intro habove
    have hlength := congrArg List.length habove
    simp only [List.length_drop, List.length_map, Array.length_toList, List.length_nil] at hlength
    omega

/-- A cut has something on the right. -/
theorem cut_above {cut : Cut N} (h : source.cut box points = .ok cut)
    (hencloses : box.Encloses source points) (hlength : 2 ≤ points.length) : cut.above ≠ [] := by
  rcases cut_eq_ok h with ⟨rest, hcut⟩ | ⟨rest, tight, last, hnone, htight, hagain⟩
  · exact cutLongest_above hcut hencloses
  rcases hagain with hcut | ⟨first, v, hcut, -, -, rfl⟩
  · exact cutLongest_above hcut (boxAround_encloses htight)
  · have hlast := ((cutLongest_perm hcut).trans (cutLongest_perm hnone)).length_eq
    intro habove
    have hnil := congrArg List.length habove
    rw [List.length_drop, List.length_nil] at hnil
    omega

/-- A cut has something on the left, except where the box is lopsided. -/
theorem cut_below {cut : Cut N} (h : source.cut box points = .ok cut)
    (hlength : 2 ≤ points.length) (hbelow : cut.below = []) :
    source.Lopsided box points ∨ ∃ rest tight, rest.Perm points ∧
      source.boxAround rest = .ok tight ∧ source.Lopsided tight rest := by
  rcases cut_eq_ok h with ⟨rest, hcut⟩ | ⟨rest, tight, last, hnone, htight, hagain⟩
  · exact .inl ((cutLongest_lopsided_iff hcut).mpr ⟨cut, rfl, hbelow⟩)
  rcases hagain with hcut | ⟨first, v, hcut, -, -, rfl⟩
  · exact .inr ⟨rest, tight, cutLongest_perm hnone, htight,
      (cutLongest_lopsided_iff hcut).mpr ⟨cut, rfl, hbelow⟩⟩
  · have hlast := ((cutLongest_perm hcut).trans (cutLongest_perm hnone)).length_eq
    have hnil := congrArg List.length hbelow
    rw [List.length_take, List.length_nil] at hnil
    omega

/-- Where the box is lopsided, a cut puts all points on the right. -/
theorem Lopsided.cut {cut : Cut N} (h : source.Lopsided box points)
    (hcut : source.cut box points = .ok cut) : cut.below = [] ∧ cut.above.Perm points := by
  have hbelow : cut.below = [] := by
    rcases cut_eq_ok hcut with ⟨rest, hfound⟩ | ⟨rest, tight, last, hnone, -⟩
    · obtain ⟨other, hother, hbelow⟩ := (cutLongest_lopsided_iff hfound).mp h
      exact Option.some.inj hother ▸ hbelow
    · obtain ⟨other, hother, -⟩ := (cutLongest_lopsided_iff hnone).mp h
      nomatch hother
  have hperm := cut_perm hcut
  rw [hbelow, List.nil_append] at hperm
  exact ⟨hbelow, hperm⟩

end Source

namespace Grows

variable [LawfulCoordinate N] {source : Source N} {leafSize first : Nat} {box : Box N}
variable {points order : List Nat} {node : Node N}

/-- No subtree comes about from a tight box that is lopsided: the same cut would come again. -/
theorem not_lopsided (h : Grows source leafSize first box points node order)
    (htight : source.boxAround points = .ok box) (hmany : leafSize < points.length) :
    ¬ source.Lopsided box points := by
  induction h with
  | leaf hfits => exact absurd hmany (Nat.not_lt.mpr hfits)
  | branch _ hcut _ hupper _ _ _ ihr =>
    intro hlopsided
    obtain ⟨-, hperm⟩ := hlopsided.cut hcut
    exact ihr hupper (hperm.length_eq ▸ hmany) (hlopsided.congr hperm htight hupper)

/-- Below the root every cut leaves both parts some points. -/
theorem cut_ne_nil {cut : Cut N} (h : Grows source leafSize first box points node order)
    (htight : source.boxAround points = .ok box) (hleaf : leafSize ≠ 0)
    (hmany : leafSize < points.length) (hcut : source.cut box points = .ok cut) :
    cut.below ≠ [] ∧ cut.above ≠ [] := by
  have hnot := h.not_lopsided htight hmany
  refine ⟨?_, Source.cut_above hcut (Source.boxAround_encloses htight) (by omega)⟩
  intro hbelow
  rcases Source.cut_below hcut (by omega) hbelow with
    hlopsided | ⟨rest, tight, hperm, hrest, hlopsided⟩
  · exact hnot hlopsided
  · exact hnot (hlopsided.congr hperm.symm hrest htight)

/-- A subtree from a tight box has at least one point in every leaf, and in some leaf more than
one if leaves may have more. -/
theorem count_of_tight (h : Grows source leafSize first box points node order)
    (htight : source.boxAround points = .ok box) (hleaf : leafSize ≠ 0) (hpoints : points ≠ []) :
    node.count + 1 ≤ 2 * points.length ∧
      (leafSize = 1 → node.count + 1 = 2 * points.length) ∧
      (2 ≤ leafSize → 2 ≤ points.length → node.count + 3 ≤ 2 * points.length) := by
  induction h with
  | @leaf first box points hfits =>
    have hpos := List.length_pos_of_ne_nil hpoints
    rw [Node.count]
    omega
  | @branch first box points cut lower upper left right leftOrder rightOrder hmany hcut hlower
      hupper hleft hright ihl ihr =>
    obtain ⟨hbelow, habove⟩ :=
      (Grows.branch hmany hcut hlower hupper hleft hright).cut_ne_nil htight hleaf hmany hcut
    have hlength := (Source.cut_perm hcut).length_eq
    rw [List.length_append] at hlength
    have hposl := List.length_pos_of_ne_nil hbelow
    have hposr := List.length_pos_of_ne_nil habove
    obtain ⟨hl, hl', hl''⟩ := ihl hlower hbelow
    obtain ⟨hr, hr', hr''⟩ := ihr hupper habove
    rw [Node.count]
    omega

/-- Nodes are at most twice the points, unless a lopsided box added an empty leaf at the root and
every other leaf has one point. -/
theorem count_of_encloses (h : Grows source leafSize first box points node order)
    (hencloses : box.Encloses source points) (hleaf : leafSize ≠ 0) (hpoints : points ≠ []) :
    (leafSize = 1 ∧ 2 ≤ points.length ∧ source.Lopsided box points →
      node.count = 2 * points.length + 1) ∧
    (¬ (leafSize = 1 ∧ 2 ≤ points.length ∧ source.Lopsided box points) →
      node.count ≤ 2 * points.length) := by
  have hpos := List.length_pos_of_ne_nil hpoints
  cases h with
  | leaf hfits =>
    rw [Node.count]
    omega
  | @branch _ _ _ cut lower upper left right leftOrder rightOrder hmany hcut hlower hupper hleft
      hright =>
    have habove := Source.cut_above hcut hencloses (by omega)
    obtain ⟨hr, hr', hr''⟩ := hright.count_of_tight hupper hleaf habove
    have hlength := (Source.cut_perm hcut).length_eq
    rw [List.length_append] at hlength
    rw [Node.count]
    by_cases hbelow : cut.below = []
    · have hempty : left.count = 1 := by
        rw [hbelow] at hleft
        cases hleft with
        | leaf _ => rfl
        | branch hmany => exact absurd hmany (Nat.not_lt_zero _)
      rw [hbelow, List.length_nil, Nat.zero_add] at hlength
      have hlopsided : source.Lopsided box points := by
        rcases Source.cut_below hcut (by omega) hbelow with
          hlopsided | ⟨rest, tight, hperm, hrest, hlopsided⟩
        · exact hlopsided
        · -- A tight box that is lopsided would be so again on the right.
          have hagain : cut.above.Perm rest := by
            have hall := Source.cut_perm hcut
            rw [hbelow, List.nil_append] at hall
            exact hall.trans hperm.symm
          exact absurd (hlopsided.congr hagain hrest hupper)
            (hright.not_lopsided hupper (hlength ▸ hmany))
      constructor
      · rintro ⟨hone, -, -⟩
        have := hr' hone
        omega
      · intro hnot
        have htwo : leafSize ≠ 1 := fun hone => hnot ⟨hone, by omega, hlopsided⟩
        have := hr'' (by omega) (by omega)
        omega
    · obtain ⟨hl, -, -⟩ := hleft.count_of_tight hlower hleaf hbelow
      constructor
      · rintro ⟨-, -, hlopsided⟩
        exact absurd (hlopsided.cut hcut).1 hbelow
      · intro _
        omega

end Grows

end Proximity
