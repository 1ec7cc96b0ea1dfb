import Mathlib
import Proximity.Proofs.Source
import Proximity.Tree.Split

/-!
# What a cut parts

Whatever the side, a cut along it puts the points below its value on the left and the others on
the right. Along a tight side on which finite values differ there always is such a cut.
-/

namespace Proximity

namespace Entry

variable {N : Type} [Coordinate N]

/-- Whether the first `count` entries are those below a value. -/
structure Parted (split : N) (count : Nat) (entries : Array (Entry N)) : Prop where
  le_size : count ≤ entries.size
  below : ∀ place entry, place < count → entries[place]? = some entry → entry.value < split
  above : ∀ place entry, count ≤ place → entries[place]? = some entry → ¬ entry.value < split

private theorem swapIfInBounds_perm {α : Type} (entries : Array α) (i j : Nat) :
    (entries.swapIfInBounds i j).Perm entries := by
  unfold Array.swapIfInBounds
  split
  · split
    · exact Array.swap_perm _ _
    · exact .refl _
  · exact .refl _

/-- Gathering moves entries and changes none. -/
private theorem gather_perm (split : N) (n i : Nat) (entries : Array (Entry N)) :
    (gather split n i entries).1.Perm entries := by
  induction n generalizing i entries with
  | zero => exact .refl _
  | succ n ih =>
    rw [gather]
    split
    · exact ih _ _
    · exact (ih _ _).trans (swapIfInBounds_perm _ _ _)

/-- Entries before `i` are below the value and those from `i + n` on are not, all the way. -/
private theorem gather_parted (split : N) (n i : Nat) (entries : Array (Entry N))
    (hsize : i + n ≤ entries.size)
    (hbelow : ∀ place entry, place < i → entries[place]? = some entry → entry.value < split)
    (habove : ∀ place entry, i + n ≤ place → entries[place]? = some entry →
      ¬ entry.value < split) :
    Parted split (gather split n i entries).2 (gather split n i entries).1 := by
  induction n generalizing i entries with
  | zero => exact ⟨hsize, hbelow, habove⟩
  | succ n ih =>
    have hi : entries[i]? = some entries[i] := Array.getElem?_eq_getElem (by omega)
    rw [gather]
    split
    · next hlt =>
      apply ih (i + 1) entries (by omega)
      · intro place entry hplace hentry
        by_cases heq : place = i
        · subst heq
          rw [hi] at hlt hentry
          exact Option.some.inj hentry ▸ of_decide_eq_true hlt
        · exact hbelow place entry (by omega) hentry
      · intro place entry hplace hentry
        exact habove place entry (by omega) hentry
    · next hlt =>
      have hin : i + n < entries.size := by omega
      have hfirst : i < entries.size := by omega
      have hswap (place : Nat) : (entries.swap i (i + n) hfirst hin)[place]? = _ :=
        Array.getElem?_swap hfirst hin
      rw [Array.swapIfInBounds, dif_pos hfirst, dif_pos hin]
      apply ih i _ (by rw [Array.size_swap]; omega)
      · intro place entry hplace hentry
        rw [hswap, if_neg (by omega), if_neg (by omega)] at hentry
        exact hbelow place entry hplace hentry
      · intro place entry hplace hentry
        rw [hswap] at hentry
        by_cases heq : i + n = place
        · rw [if_pos heq] at hentry
          rw [hi] at hlt
          exact Option.some.inj hentry ▸ fun h => hlt (decide_eq_true h)
        · rw [if_neg heq, if_neg (by omega)] at hentry
          exact habove place entry (by omega) hentry

/-- A partition moves entries and changes none. -/
theorem partition_perm (split : N) (entries : Array (Entry N)) :
    (partition split entries).1.Perm entries :=
  gather_perm _ _ _ _

/-- A partition puts the entries below the split first and counts them. -/
theorem partition_parted (split : N) (entries : Array (Entry N)) :
    Parted split (partition split entries).2 (partition split entries).1 := by
  apply gather_parted
  · rw [Nat.zero_add]
  · intro place entry hplace
    omega
  · intro place entry hplace hentry
    have hnone : entries[place]? = none := Array.getElem?_eq_none (by omega)
    rw [hnone] at hentry
    nomatch hentry

theorem Parted.take {split : N} {count : Nat} {entries : Array (Entry N)}
    (h : Parted split count entries) :
    ∀ entry ∈ entries.toList.take count, entry.value < split := by
  intro entry hentry
  obtain ⟨place, hplace⟩ := List.getElem?_of_mem hentry
  rw [List.getElem?_take] at hplace
  split at hplace
  · next hlt => exact h.below place entry hlt (by rwa [Array.getElem?_toList] at hplace)
  · nomatch hplace

theorem Parted.drop {split : N} {count : Nat} {entries : Array (Entry N)}
    (h : Parted split count entries) :
    ∀ entry ∈ entries.toList.drop count, ¬ entry.value < split := by
  intro entry hentry
  obtain ⟨place, hplace⟩ := List.getElem?_of_mem hentry
  rw [List.getElem?_drop, Array.getElem?_toList] at hplace
  exact h.above _ entry (Nat.le_add_right _ _) hplace

/-- The left part is empty exactly when nothing lies below the value. -/
theorem Parted.eq_zero_iff {split : N} {count : Nat} {entries : Array (Entry N)}
    (h : Parted split count entries) :
    count = 0 ↔ ∀ entry ∈ entries, ¬ entry.value < split := by
  constructor
  · rintro rfl entry hentry
    exact h.drop entry (by rwa [List.drop_zero, Array.mem_toList_iff])
  · intro hall
    by_contra hne
    have hlt : 0 < entries.size := (Nat.pos_of_ne_zero hne).trans_le h.le_size
    exact hall entries[0] (Array.getElem_mem hlt)
      (h.below 0 _ (Nat.pos_of_ne_zero hne) (Array.getElem?_eq_getElem hlt))

/-- The right part is empty exactly when everything lies below the value. -/
theorem Parted.eq_size_iff {split : N} {count : Nat} {entries : Array (Entry N)}
    (h : Parted split count entries) :
    count = entries.size ↔ ∀ entry ∈ entries, entry.value < split := by
  constructor
  · intro heq entry hentry
    apply h.take entry
    rwa [heq, ← Array.length_toList, List.take_length, Array.mem_toList_iff]
  · intro hall
    by_contra hne
    have hlt : count < entries.size := lt_of_le_of_ne h.le_size hne
    exact h.above count _ (Nat.le_refl _) (Array.getElem?_eq_getElem hlt)
      (hall entries[count] (Array.getElem_mem hlt))

/-- The low end of a tight side around the values of some entries, found along the way. -/
structure IsFloor (entries : Array (Entry N)) (floor : N) : Prop where
  le_highest : floor ≤ Coordinate.highest
  attained : floor = Coordinate.highest ∨ ∃ entry ∈ entries, entry.value = floor
  not_lt : ∀ entry ∈ entries, ¬ entry.value < floor

/-- The high end of a tight side around the values of some entries. -/
structure IsCeiling (entries : Array (Entry N)) (ceiling : N) : Prop where
  lowest_le : Coordinate.lowest ≤ ceiling
  attained : ceiling = Coordinate.lowest ∨ ∃ entry ∈ entries, entry.value = ceiling
  not_lt : ∀ entry ∈ entries, ¬ ceiling < entry.value

/-- The tight side around the values of some entries. -/
def side (entries : Array (Entry N)) : Side N := .around (entries.toList.map Entry.value)

theorem least_eq (entries : Array (Entry N)) : least entries = (side entries).low := by
  have hfold (list : List (Entry N)) (start : Side N) :
      list.foldl (fun low entry => if entry.value < low then entry.value else low) start.low =
        ((list.map Entry.value).foldl Side.stretch start).low := by
    induction list generalizing start with
    | nil => rfl
    | cons entry list ih => exact ih (start.stretch entry.value)
  unfold least
  rw [← Array.foldl_toList]
  exact hfold entries.toList Side.inverted

theorem greatest_eq (entries : Array (Entry N)) : greatest entries = (side entries).high := by
  have hfold (list : List (Entry N)) (start : Side N) :
      list.foldl (fun high entry => if high < entry.value then entry.value else high) start.high =
        ((list.map Entry.value).foldl Side.stretch start).high := by
    induction list generalizing start with
    | nil => rfl
    | cons entry list ih => exact ih (start.stretch entry.value)
  unfold greatest
  rw [← Array.foldl_toList]
  exact hfold entries.toList Side.inverted

omit [Coordinate N] in
private theorem mem_values {entries : Array (Entry N)} {v : N} :
    v ∈ entries.toList.map Entry.value ↔ ∃ entry ∈ entries, entry.value = v := by
  simp only [List.mem_map, Array.mem_toList_iff]

/-- What lies above a value is found if there is anything, and it is the value of an entry. -/
private theorem next?_spec (floor : N) (entries : Array (Entry N)) :
    match next? floor entries with
    | none => ∀ entry ∈ entries, ¬ floor < entry.value
    | some next => floor < next ∧ ∃ entry ∈ entries, entry.value = next := by
  have hfold (list : List (Entry N)) (start : Option N) (hstart : ∀ next, start = some next →
      floor < next ∧ ∃ entry ∈ entries, entry.value = next) (hlist : ∀ entry ∈ list,
      entry ∈ entries) :
      match list.foldl (fun next entry =>
        if floor < entry.value ∧ next.all (entry.value < ·) then some entry.value else next)
        start with
      | none => start = none ∧ ∀ entry ∈ list, ¬ floor < entry.value
      | some next => floor < next ∧ ∃ entry ∈ entries, entry.value = next := by
    induction list generalizing start with
    | nil =>
      cases start with
      | none => exact ⟨rfl, fun _ h => absurd h List.not_mem_nil⟩
      | some next => exact hstart next rfl
    | cons first list ih =>
      have hfirst := hlist first List.mem_cons_self
      have hrest := fun entry h => hlist entry (List.mem_cons_of_mem _ h)
      rw [List.foldl_cons]
      by_cases hif : floor < first.value ∧ start.all (first.value < ·)
      · rw [if_pos hif]
        have hnext := ih (some first.value)
          (fun next h => Option.some.inj h ▸ ⟨hif.1, first, hfirst, rfl⟩) hrest
        split at hnext
        · exact absurd hnext.1 (by simp)
        · exact hnext
      · rw [if_neg hif]
        have hnext := ih start hstart hrest
        split at hnext
        · refine ⟨hnext.1, ?_⟩
          intro entry hentry hlt
          rcases List.mem_cons.mp hentry with rfl | hentry
          · exact hif ⟨hlt, by rw [hnext.1]; rfl⟩
          · exact hnext.2 entry hentry hlt
        · exact hnext
  have hall := hfold entries.toList none (fun _ h => (nomatch h))
    (fun _ h => Array.mem_toList_iff.mp h)
  rw [Array.foldl_toList] at hall
  unfold next?
  split at hall
  · exact fun entry h => hall.2 entry (Array.mem_toList_iff.mpr h)
  · exact hall

/-- All that sliding along a side can do. -/
inductive Slides (side : Side N) (entries : Array (Entry N)) :
    Array (Entry N) × Option (N × Nat) → Prop
  /-- Nothing lies below the middle, and nothing above the least value. -/
  | flat {ordered floor} : ordered.Perm entries → IsFloor entries floor →
      (∀ entry ∈ entries, ¬ floor < entry.value) → Slides side entries (ordered, none)
  /-- Nothing lies below the middle, and the cut is at the next value above the least one. -/
  | up {ordered floor split count} : ordered.Perm entries → IsFloor entries floor →
      (∀ entry ∈ entries, ¬ entry.value < Coordinate.middle side.low side.high) →
      floor < split → (∃ entry ∈ entries, entry.value = split) → Parted split count ordered →
      (∀ entry ∈ entries, floor < entry.value → ¬ entry.value < split) →
      Slides side entries (ordered, some (split, count))
  /-- Everything lies below the middle, and nothing below the greatest value. -/
  | full {ordered ceiling} : ordered.Perm entries → IsCeiling entries ceiling →
      (∀ entry ∈ entries, entry.value < Coordinate.middle side.low side.high) →
      (∀ entry ∈ entries, ¬ entry.value < ceiling) → Slides side entries (ordered, none)
  /-- Everything lies below the middle, and the cut is at the greatest value. -/
  | down {ordered ceiling count} : ordered.Perm entries → IsCeiling entries ceiling →
      (∀ entry ∈ entries, entry.value < Coordinate.middle side.low side.high) → count ≠ 0 →
      Parted ceiling count ordered → Slides side entries (ordered, some (ceiling, count))
  /-- The cut is at the middle. -/
  | centre {ordered count} : ordered.Perm entries → count ≠ 0 → count ≠ ordered.size →
      Parted (Coordinate.middle side.low side.high) count ordered →
      Slides side entries (ordered, some (Coordinate.middle side.low side.high, count))

variable [LawfulCoordinate N]

/-- Of what lies above a value nothing is below what is found. -/
private theorem next?_least {floor next : N} {entries : Array (Entry N)}
    (h : next? floor entries = some next) :
    ∀ entry ∈ entries, floor < entry.value → ¬ entry.value < next := by
  have hfold (list : List (Entry N)) (start : Option N) (hstart : ∀ v, start = some v → v ≤ v)
      (h : list.foldl (fun next entry =>
        if floor < entry.value ∧ next.all (entry.value < ·) then some entry.value else next)
        start = some next) :
      (∀ v, start = some v → ¬ v < next) ∧
        ∀ entry ∈ list, floor < entry.value → ¬ entry.value < next := by
    induction list generalizing start with
    | nil => exact ⟨fun v hv => Option.some.inj (hv.symm.trans h) ▸ Comparison.irrefl,
        fun _ hentry => absurd hentry List.not_mem_nil⟩
    | cons first list ih =>
      rw [List.foldl_cons] at h
      by_cases hif : floor < first.value ∧ start.all (first.value < ·)
      · rw [if_pos hif] at h
        have hfirst := Comparison.right (Comparison.le hif.1)
        obtain ⟨hnot, hrest⟩ := ih (some first.value) (fun v hv => Option.some.inj hv ▸ hfirst) h
        refine ⟨?_, List.forall_mem_cons.mpr ⟨fun _ => hnot _ rfl, hrest⟩⟩
        rintro v rfl hlt
        exact hnot _ rfl (Comparison.lt_trans (of_decide_eq_true hif.2) hlt)
      · rw [if_neg hif] at h
        obtain ⟨hnot, hrest⟩ := ih start hstart h
        refine ⟨hnot, List.forall_mem_cons.mpr ⟨fun habove hlt => ?_, hrest⟩⟩
        cases start with
        | none => exact hif ⟨habove, rfl⟩
        | some v =>
          have hge : ¬ first.value < v := fun hlt' => hif ⟨habove, decide_eq_true hlt'⟩
          have hle := Comparison.le_of_not_lt (Comparison.right (Comparison.le habove))
            (hstart v rfl) hge
          exact hnot v rfl (Comparison.lt_of_le_of_lt hle hlt)
  unfold next? at h
  rw [← Array.foldl_toList] at h
  exact fun entry hentry =>
    (hfold entries.toList none (fun _ h => (nomatch h)) h).2 entry (Array.mem_toList_iff.mpr hentry)

theorem isFloor_least {ordered entries : Array (Entry N)} (h : ordered.Perm entries) :
    IsFloor entries (least ordered) := by
  rw [least_eq]
  refine ⟨(Side.around_inReach _).1, ?_, ?_⟩
  · refine (Side.around_low _).imp id fun hmem => ?_
    obtain ⟨entry, hentry, hvalue⟩ := mem_values.mp hmem
    exact ⟨entry, h.mem_iff.mp hentry, hvalue⟩
  · intro entry hentry
    exact Side.not_lt_around (mem_values.mpr ⟨entry, h.mem_iff.mpr hentry, rfl⟩)

theorem isCeiling_greatest {ordered entries : Array (Entry N)} (h : ordered.Perm entries) :
    IsCeiling entries (greatest ordered) := by
  rw [greatest_eq]
  refine ⟨(Side.around_inReach _).2, ?_, ?_⟩
  · refine (Side.around_high _).imp id fun hmem => ?_
    obtain ⟨entry, hentry, hvalue⟩ := mem_values.mp hmem
    exact ⟨entry, h.mem_iff.mp hentry, hvalue⟩
  · intro entry hentry
    exact Side.not_around_lt (mem_values.mpr ⟨entry, h.mem_iff.mpr hentry, rfl⟩)

theorem slide_slides (side : Side N) (entries : Array (Entry N)) :
    Slides side entries (slide side entries) := by
  have hperm := partition_perm (Coordinate.middle side.low side.high) entries
  have hparted := partition_parted (Coordinate.middle side.low side.high) entries
  unfold slide
  dsimp only
  generalize partition (Coordinate.middle side.low side.high) entries = parts at hperm hparted ⊢
  obtain ⟨ordered, count⟩ := parts
  dsimp only at hperm hparted ⊢
  by_cases hzero : count = 0
  · rw [if_pos hzero]
    have hnext := next?_spec (least ordered) ordered
    have hleast (split : N) (h : next? (least ordered) ordered = some split) := next?_least h
    have hnone (entry) (h : entry ∈ entries) :=
      hparted.eq_zero_iff.mp hzero entry (hperm.mem_iff.mpr h)
    generalize next? (least ordered) ordered = next at hnext hleast ⊢
    cases next with
    | none =>
      exact .flat hperm (isFloor_least hperm)
        fun entry h => hnext entry (hperm.mem_iff.mpr h)
    | some split =>
      obtain ⟨hlt, entry, hentry, hvalue⟩ := hnext
      exact .up ((partition_perm split ordered).trans hperm) (isFloor_least hperm) hnone hlt
        ⟨entry, hperm.mem_iff.mp hentry, hvalue⟩ (partition_parted split ordered)
        fun entry h => hleast split rfl entry (hperm.mem_iff.mpr h)
  · rw [if_neg hzero]
    by_cases hsize : count = ordered.size
    · rw [if_pos hsize]
      have hagain := (partition_perm (greatest ordered) ordered).trans hperm
      have hparted' := partition_parted (greatest ordered) ordered
      have hall (entry) (h : entry ∈ entries) :=
        hparted.eq_size_iff.mp hsize entry (hperm.mem_iff.mpr h)
      by_cases hzero' : (partition (greatest ordered) ordered).2 = 0
      · rw [if_pos hzero']
        exact .full hagain (isCeiling_greatest hperm) hall
          fun entry h => hparted'.eq_zero_iff.mp hzero' entry (hagain.mem_iff.mpr h)
      · rw [if_neg hzero']
        exact .down hagain (isCeiling_greatest hperm) hall hzero' hparted'
    · rw [if_neg hsize]
      exact .centre hperm hzero hsize hparted

omit [LawfulCoordinate N] in
/-- Sliding a cut moves entries and changes none. -/
theorem Slides.perm {side : Side N} {entries ordered : Array (Entry N)} {found}
    (h : Slides side entries (ordered, found)) : ordered.Perm entries := by
  cases h <;> assumption

omit [LawfulCoordinate N] in
/-- A cut that was found parts the entries at its count. -/
theorem Slides.parted {side : Side N} {entries ordered : Array (Entry N)} {split : N}
    {count : Nat} (h : Slides side entries (ordered, some (split, count))) :
    Parted split count ordered := by
  cases h <;> assumption

/-- A value that points are parted at is ordered. -/
theorem Slides.split_self {side : Side N} {entries ordered : Array (Entry N)} {split : N}
    {count : Nat} (h : Slides side entries (ordered, some (split, count))) : split ≤ split := by
  cases h with
  | up _ _ _ hlt => exact Comparison.right (Comparison.le hlt)
  | down _ hceiling => exact Comparison.right hceiling.lowest_le
  | centre _ hne _ hparted =>
    have hsome := mt hparted.eq_zero_iff.mpr hne
    simp only [not_forall, not_not] at hsome
    obtain ⟨entry, -, hlt⟩ := hsome
    exact Comparison.right (Comparison.le hlt)

/-- Values that differ are parted. -/
theorem Slides.isSome {side : Side N} {entries : Array (Entry N)} {result}
    (h : Slides side entries result) (hordered : ∀ entry ∈ entries, entry.value ≤ entry.value)
    {first second : Entry N} (hfirst : first ∈ entries) (hsecond : second ∈ entries)
    (hlt : first.value < second.value) : result.2.isSome := by
  cases h with
  | flat _ hfloor hnone =>
    have hle := Comparison.le_of_not_lt (hordered first hfirst)
      (Comparison.left hfloor.le_highest) (hfloor.not_lt first hfirst)
    exact absurd (Comparison.lt_of_le_of_lt hle hlt) (hnone second hsecond)
  | full _ hceiling _ hnone =>
    have hle := Comparison.le_of_not_lt (Comparison.right hceiling.lowest_le)
      (hordered second hsecond) (hceiling.not_lt second hsecond)
    exact absurd (Comparison.lt_of_lt_of_le hlt hle) (hnone first hfirst)
  | up => rfl
  | down => rfl
  | centre => rfl

end Entry

namespace Source

variable {N : Type} [Coordinate N] {source : Source N} {box : Box N} {points rest : List Nat}

/-- A cut along the longest side, if it has some length. -/
theorem cutLongest_eq_ok {found : Option (Cut N)}
    (h : source.cutLongest box points = .ok (rest, found)) :
    (found = none ∧ rest = points ∧
        ∀ side, box.sides[box.widest]? = some side → ¬ side.low < side.high) ∨
      ∃ side entries, box.sides[box.widest]? = some side ∧ side.low < side.high ∧
        source.column points box.widest = .ok entries ∧
        rest = (Entry.slide side entries.toArray).1.toList.map Entry.index ∧
        found = (Entry.slide side entries.toArray).2.map fun (split, count) =>
          ⟨box.widest, split, rest.take count, rest.drop count⟩ := by
  unfold cutLongest at h
  dsimp only at h
  split at h
  · next hnone =>
    obtain ⟨rfl, rfl⟩ := Prod.mk.inj (Except.ok.inj h)
    exact .inl ⟨rfl, rfl, fun side hside => absurd (hnone.symm.trans hside) (by simp)⟩
  · next side hside =>
    split at h
    · next hlt =>
      obtain ⟨entries, hcolumn, h⟩ := Outcome.bind_eq_ok.mp h
      obtain ⟨rfl, rfl⟩ := Prod.mk.inj (Except.ok.inj h)
      exact .inr ⟨side, entries, hside, hlt, hcolumn, rfl, rfl⟩
    · next hlt =>
      obtain ⟨rfl, rfl⟩ := Prod.mk.inj (Except.ok.inj h)
      exact .inl ⟨rfl, rfl, fun other hother => Option.some.inj (hside.symm.trans hother) ▸ hlt⟩

/-- Points are cut along the longest side of the box given, else along that of the tight box, and
else in two halves. -/
theorem cut_eq_ok {cut : Cut N} (h : source.cut box points = .ok cut) :
    (∃ rest, source.cutLongest box points = .ok (rest, some cut)) ∨
      ∃ rest tight last, source.cutLongest box points = .ok (rest, none) ∧
        source.boxAround rest = .ok tight ∧
        (source.cutLongest tight rest = .ok (last, some cut) ∨
          ∃ first v, source.cutLongest tight rest = .ok (last, none) ∧ first ∈ last ∧
            source.coordinate? first 0 = some v ∧
            cut = ⟨0, v, last.take (last.length / 2), last.drop (last.length / 2)⟩) := by
  obtain ⟨⟨rest, found⟩, hlongest, h⟩ := Outcome.bind_eq_ok.mp h
  cases found with
  | some other => exact .inl ⟨rest, Except.ok.inj h ▸ hlongest⟩
  | none =>
    obtain ⟨tight, htight, h⟩ := Outcome.bind_eq_ok.mp h
    obtain ⟨⟨last, found⟩, hagain, h⟩ := Outcome.bind_eq_ok.mp h
    refine .inr ⟨rest, tight, last, hlongest, htight, ?_⟩
    cases found with
    | some other => exact .inl (Except.ok.inj h ▸ hagain)
    | none =>
      cases last with
      | nil => nomatch h
      | cons first last =>
        obtain ⟨v, hv, h⟩ := Outcome.bind_eq_ok.mp h
        exact .inr ⟨first, v, hagain, List.mem_cons_self, read_eq_ok.mp hv,
          (Except.ok.inj h).symm⟩

/-- Whether a point has all its coordinates and they are finite. -/
def FiniteAt (source : Source N) (index : Nat) : Prop :=
  ∀ axis < source.dims, ∃ v, source.coordinate? index axis = some v ∧ Coordinate.IsFinite v

theorem FiniteAt.complete {index : Nat} (h : source.FiniteAt index) : source.Complete index := by
  intro axis haxis
  obtain ⟨v, hv, -⟩ := h axis haxis
  rw [hv]
  rfl

theorem FiniteAt.coordinates {index : Nat} (h : source.FiniteAt index) :
    ∀ v ∈ source.coordinates index, Coordinate.IsFinite v := by
  intro v hv
  obtain ⟨axis, haxis⟩ := List.getElem?_of_mem hv
  have hlt := (List.getElem?_eq_some_iff.mp haxis).1
  rw [length_coordinates h.complete] at hlt
  rw [getElem?_coordinates h.complete hlt] at haxis
  obtain ⟨w, hw, hfinite⟩ := h axis hlt
  exact Option.some.inj (hw.symm.trans haxis) ▸ hfinite

theorem Reads.finite {axis : Nat} {values : List N} (h : source.Reads axis points values)
    (hfinite : ∀ index ∈ points, source.FiniteAt index) (haxis : axis < source.dims) :
    ∀ v ∈ values, Coordinate.IsFinite v := by
  intro v hv
  obtain ⟨index, hindex, hread⟩ := h.exists_point v hv
  obtain ⟨w, hw, hwfinite⟩ := hfinite index hindex axis haxis
  exact Option.some.inj (hw.symm.trans hread) ▸ hwfinite

end Source

/-- Whether a cut has exactly the points below its value on the left. -/
structure Cut.Separates {N : Type} [Coordinate N] (cut : Cut N) (source : Source N) : Prop where
  below : ∀ index ∈ cut.below, ∃ v, source.coordinate? index cut.axis = some v ∧ v < cut.split
  above : ∀ index ∈ cut.above, ∃ v, source.coordinate? index cut.axis = some v ∧ ¬ v < cut.split

/-- Whether no point on either side of a cut lies beyond its value. -/
structure Cut.Orders {N : Type} [Coordinate N] (cut : Cut N) (source : Source N) : Prop where
  axis_lt : cut.axis < source.dims
  below : ∀ index ∈ cut.below, ∃ v, source.coordinate? index cut.axis = some v ∧ v ≤ cut.split
  above : ∀ index ∈ cut.above, ∃ v, source.coordinate? index cut.axis = some v ∧ cut.split ≤ v

namespace Source

variable {N : Type} [Coordinate N] [LawfulCoordinate N] {source : Source N} {box : Box N}
variable {points rest : List Nat}

/-- A cut rearranges the points it is made of. -/
theorem cutLongest_perm {found : Option (Cut N)}
    (h : source.cutLongest box points = .ok (rest, found)) : rest.Perm points := by
  obtain ⟨-, rfl, -⟩ | ⟨side, entries, -, -, hcolumn, rfl, -⟩ := cutLongest_eq_ok h
  · exact .refl _
  · have hslides := (Entry.slide_slides side entries.toArray).perm
    rw [← (column_eq_ok hcolumn).1]
    exact hslides.toList.map _

/-- A cut along a side separates its points, wherever the side lies. -/
theorem cutLongest_separates {cut : Cut N}
    (h : source.cutLongest box points = .ok (rest, some cut)) :
    cut.Separates source ∧ cut.below ++ cut.above = rest ∧ cut.axis < box.dims ∧
      cut.split ≤ cut.split := by
  obtain ⟨hnone, -⟩ | ⟨side, entries, hside, -, hcolumn, rfl, hfound⟩ := cutLongest_eq_ok h
  · nomatch hnone
  obtain ⟨hindex, hreads⟩ := column_eq_ok hcolumn
  rw [← hindex] at hreads
  have hslides := Entry.slide_slides side entries.toArray
  generalize Entry.slide side entries.toArray = result at hslides hfound
  obtain ⟨ordered, found⟩ := result
  cases found with
  | none => nomatch hfound
  | some found =>
    obtain ⟨split, count⟩ := found
    obtain rfl := Option.some.inj hfound
    have hentry (entry) (hmem : entry ∈ ordered.toList) :
        source.coordinate? entry.index box.widest = some entry.value := by
      apply hreads.entry
      exact hslides.perm.toList.mem_iff.mp hmem
    refine ⟨⟨?_, ?_⟩, List.take_append_drop _ _, ?_, hslides.split_self⟩
    · intro index hmem
      dsimp only at hmem
      rw [← List.map_take] at hmem
      obtain ⟨entry, hin, rfl⟩ := List.mem_map.mp hmem
      exact ⟨entry.value, hentry entry (List.mem_of_mem_take hin), hslides.parted.take entry hin⟩
    · intro index hmem
      dsimp only at hmem
      rw [← List.map_drop] at hmem
      obtain ⟨entry, hin, rfl⟩ := List.mem_map.mp hmem
      exact ⟨entry.value, hentry entry (List.mem_of_mem_drop hin), hslides.parted.drop entry hin⟩
    · exact (List.getElem?_eq_some_iff.mp hside).1

/-- No point is lost or made up by a cut. -/
theorem cut_perm {cut : Cut N} (h : source.cut box points = .ok cut) :
    (cut.below ++ cut.above).Perm points := by
  rcases cut_eq_ok h with ⟨rest, hcut⟩ | ⟨rest, tight, last, hnone, -, hagain⟩
  · rw [(cutLongest_separates hcut).2.1]
    exact cutLongest_perm hcut
  · rcases hagain with hcut | ⟨first, v, hcut, -, -, rfl⟩
    · rw [(cutLongest_separates hcut).2.1]
      exact (cutLongest_perm hcut).trans (cutLongest_perm hnone)
    · rw [List.take_append_drop]
      exact (cutLongest_perm hcut).trans (cutLongest_perm hnone)

/-- Around finite values, the ends of a tight side that has some length are among them. -/
private theorem exists_lt_of_spread {values : List N}
    (hfinite : ∀ v ∈ values, Coordinate.IsFinite v)
    (h : (Side.around values).low < (Side.around values).high) :
    ∃ v ∈ values, ∃ w ∈ values, v < w := by
  rcases Side.around_low values with hlow | hlow
  · rcases Side.around_high values with hhigh | hhigh
    · rw [hlow, hhigh] at h
      exact absurd LawfulCoordinate.lowest_le_highest (Comparison.not_ge h)
    · rw [hlow] at h
      exact absurd (hfinite _ hhigh).2 (Comparison.not_ge h)
  · rcases Side.around_high values with hhigh | hhigh
    · rw [hhigh] at h
      exact absurd (hfinite _ hlow).1 (Comparison.not_ge h)
    · exact ⟨_, hlow, _, hhigh, h⟩

/-- Finite points that their tight box cannot part coincide. -/
theorem coincide_of_uncut {tight : Box N} {last : List Nat}
    (hfinite : ∀ index ∈ points, source.FiniteAt index)
    (htight : source.boxAround points = .ok tight)
    (hnone : source.cutLongest tight points = .ok (last, none)) {axis : Nat}
    (haxis : axis < source.dims) {first second : Nat} (hfirst : first ∈ points)
    (hsecond : second ∈ points) {v w : N} (hv : source.coordinate? first axis = some v)
    (hw : source.coordinate? second axis = some w) : v ≤ w := by
  obtain ⟨hdims, hsides⟩ := boxAround_eq_ok htight
  have hflat : ∀ side, tight.sides[tight.widest]? = some side → ¬ side.low < side.high := by
    intro side hside hlt
    obtain ⟨-, -, hflat⟩ | ⟨side', entries, hside', -, hcolumn, -, hfound⟩ :=
      cutLongest_eq_ok hnone
    · exact hflat side hside hlt
    obtain ⟨hindex, hreads⟩ := column_eq_ok hcolumn
    have hwidest : tight.widest < source.dims := by
      rw [← hdims]
      exact (List.getElem?_eq_some_iff.mp hside).1
    obtain ⟨values, hvalues, hside''⟩ := hsides _ hwidest
    obtain rfl := hvalues.unique hreads
    obtain rfl := Option.some.inj (hside.symm.trans hside'')
    have hall := hreads.finite hfinite hwidest
    obtain ⟨v, hv, w, hw, hvw⟩ := exists_lt_of_spread hall hlt
    obtain ⟨e, he, rfl⟩ := List.mem_map.mp hv
    obtain ⟨f, hf, rfl⟩ := List.mem_map.mp hw
    have hordered (entry) (hentry : entry ∈ entries.toArray) : entry.value ≤ entry.value :=
      Comparison.right (hall _ (List.mem_map_of_mem (Array.mem_toList_iff.mpr hentry))).1
    have hsome := (Entry.slide_slides side' entries.toArray).isSome hordered
      (List.mem_toArray.mpr he) (List.mem_toArray.mpr hf) hvw
    rw [Option.map_eq_none_iff.mp hfound.symm] at hsome
    exact Bool.false_ne_true hsome
  have hreach : ∀ side ∈ tight.sides, side.InReach := by
    intro side hside
    obtain ⟨axis, haxis, rfl⟩ := List.getElem_of_mem hside
    obtain ⟨values, -, hvalues⟩ := hsides axis (hdims ▸ haxis)
    rw [List.getElem?_eq_getElem haxis] at hvalues
    exact Option.some.inj hvalues ▸ Side.around_inReach values
  obtain ⟨values, hreads, hside⟩ := hsides axis haxis
  have hmem := List.mem_of_getElem? hside
  have hnlt : ¬ (Side.around values).low < (Side.around values).high := by
    intro hlt
    obtain ⟨widest, hwidest, hspread⟩ := Box.widest_spread hreach hmem hlt
    exact hflat widest hwidest hspread
  obtain ⟨v', hv', hread⟩ := hreads.exists_value first hfirst
  obtain ⟨w', hw', hread'⟩ := hreads.exists_value second hsecond
  obtain rfl := Option.some.inj (hread.symm.trans hv)
  obtain rfl := Option.some.inj (hread'.symm.trans hw)
  have hall := hreads.finite hfinite haxis
  have hvholds := Side.around_holds hv' (Comparison.right (hall _ hv').1)
  have hwholds := Side.around_holds hw' (Comparison.right (hall _ hw').1)
  have hback := Comparison.le_of_not_lt (Comparison.left hvholds.1)
    (Comparison.right hvholds.2) hnlt
  exact Comparison.trans hvholds.2 (Comparison.trans hback hwholds.1)

/-- Both parts of a cut of finite points are finite. -/
theorem cut_finite {cut : Cut N} (hfinite : ∀ index ∈ points, source.FiniteAt index)
    (h : source.cut box points = .ok cut) :
    (∀ index ∈ cut.below, source.FiniteAt index) ∧ ∀ index ∈ cut.above, source.FiniteAt index := by
  have hperm := cut_perm h
  constructor
  · exact fun index hindex => hfinite index (hperm.mem_iff.mp (List.mem_append_left _ hindex))
  · exact fun index hindex => hfinite index (hperm.mem_iff.mp (List.mem_append_right _ hindex))

theorem cut_axis_lt {cut : Cut N} (hdims : 0 < source.dims) (hbox : box.dims = source.dims)
    (h : source.cut box points = .ok cut) : cut.axis < source.dims := by
  rcases cut_eq_ok h with ⟨rest, hcut⟩ | ⟨rest, tight, last, -, htight, hagain⟩
  · exact hbox ▸ (cutLongest_separates hcut).2.2.1
  rcases hagain with hcut | ⟨first, v, -, -, -, rfl⟩
  · exact (boxAround_eq_ok htight).1 ▸ (cutLongest_separates hcut).2.2.1
  · exact hdims

/-- No point on either side of a cut of finite points lies beyond its value. -/
theorem cut_orders {cut : Cut N} (hdims : 0 < source.dims) (hbox : box.dims = source.dims)
    (hfinite : ∀ index ∈ points, source.FiniteAt index) (h : source.cut box points = .ok cut) :
    cut.Orders source := by
  have hperm := cut_perm h
  have hparted {tight : Box N} {rest last : List Nat} (htight : tight.dims = source.dims)
      (hcut : source.cutLongest tight rest = .ok (last, some cut)) : cut.Orders source := by
    obtain ⟨⟨hbelow, habove⟩, -, haxis, hself⟩ := cutLongest_separates hcut
    have haxis' : cut.axis < source.dims := htight ▸ haxis
    refine ⟨haxis', ?_, ?_⟩
    · intro index hindex
      obtain ⟨v, hv, hlt⟩ := hbelow index hindex
      exact ⟨v, hv, Comparison.le hlt⟩
    · intro index hindex
      obtain ⟨v, hv, hnlt⟩ := habove index hindex
      obtain ⟨w, hw, hwfinite⟩ := hfinite index
        (hperm.mem_iff.mp (List.mem_append_right _ hindex)) cut.axis haxis'
      obtain rfl := Option.some.inj (hv.symm.trans hw)
      exact ⟨v, hv, Comparison.le_of_not_lt (Comparison.right hwfinite.1) hself hnlt⟩
  rcases cut_eq_ok h with ⟨rest, hcut⟩ | ⟨rest, tight, last, hnone, htight, hagain⟩
  · exact hparted hbox hcut
  · rcases hagain with hcut | ⟨first, v, hcut, hfirst, hv, rfl⟩
    · exact hparted (boxAround_eq_ok htight).1 hcut
    · have hrest := cutLongest_perm hnone
      have hlast := cutLongest_perm hcut
      have hall : ∀ index ∈ rest, source.FiniteAt index := fun index hindex =>
        hfinite index (hrest.mem_iff.mp hindex)
      have hat {index : Nat} (hindex : index ∈ last) :
          ∃ w, source.coordinate? index 0 = some w ∧ w ≤ v ∧ v ≤ w := by
        have hindex := hlast.mem_iff.mp hindex
        obtain ⟨w, hw, -⟩ := hall index hindex 0 hdims
        have hfirst := hlast.mem_iff.mp hfirst
        exact ⟨w, hw, coincide_of_uncut hall htight hcut hdims hindex hfirst hw hv,
          coincide_of_uncut hall htight hcut hdims hfirst hindex hv hw⟩
      refine ⟨hdims, ?_, ?_⟩
      · intro index hindex
        obtain ⟨w, hw, hle, -⟩ := hat (List.mem_of_mem_take hindex)
        exact ⟨w, hw, hle⟩
      · intro index hindex
        obtain ⟨w, hw, -, hle⟩ := hat (List.mem_of_mem_drop hindex)
        exact ⟨w, hw, hle⟩

end Source

end Proximity
