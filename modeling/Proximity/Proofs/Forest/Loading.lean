import Mathlib
import Proximity.Proofs.Bytes.Reading
import Proximity.Proofs.Bytes.Words
import Proximity.Proofs.Forest.Invariant

/-!
# Reading a forest

A forest is read slot by slot, and what was read so far is a forest already. A slot is accepted
only if its digit of the counter is set and none of its points is in a lower slot or in it twice,
so the invariant holds after every slot, whatever the bytes were.
-/

namespace Proximity

namespace Forest

variable {N D : Type}

/-- A forest is begun with options that trees can be built with and a number of axes that they can
have. -/
theorem empty_eq_ok {dims : Nat} {options : BuildOptions} {metric : Metric N D}
    {forest : Forest N D} : empty dims options metric = .ok forest ↔
      options.validate = .ok () ∧ dims ≠ 0 ∧ dims ≤ maxWord16 ∧
        forest = ⟨dims, options, metric, [], 0, .empty, 0⟩ := by
  rw [empty, Outcome.bind_eq_ok]
  simp only [Outcome.guard_eq_ok, not_or, Nat.not_lt, Outcome.pure_eq_ok, Except.ok.injEq,
    and_assoc]
  constructor
  · rintro ⟨⟨⟩, hvalid, hzero, hdims, rfl⟩
    exact ⟨hvalid, hzero, hdims, rfl⟩
  · rintro ⟨hvalid, hzero, hdims, rfl⟩
    exact ⟨(), hvalid, hzero, hdims, rfl⟩

/-- A forest without points keeps the invariant, whatever it has counted. -/
theorem sound_empty (dims : Nat) (options : BuildOptions) (metric : Metric N D) {counter : Nat}
    (hcounter : counter ≤ maxWord64) :
    (⟨dims, options, metric, [], counter, .empty, 0⟩ : Forest N D).Sound := by
  refine ⟨fun slot plot hplot => (nomatch hplot), fun slot plot hplot => (nomatch hplot), ?_, rfl,
    hcounter⟩
  intro index slot
  exact ⟨fun hslot => (nomatch hslot), fun ⟨plot, hplot, _⟩ => (nomatch hplot)⟩

/-- A list with one more entry has that entry in its last place and the others where they were. -/
private theorem join_getElem?_push {α : Type} (items : List (Option α)) (item : Option α)
    (place : Nat) :
    ((items ++ [item])[place]?).join =
      if place = items.length then item else (items[place]?).join := by
  by_cases heq : place = items.length
  · rw [if_pos heq, heq, List.getElem?_concat_length]
    rfl
  · rw [if_neg heq]
    rcases Nat.lt_or_gt_of_ne heq with hlt | hgt
    · rw [List.getElem?_append_left hlt]
    · rw [List.getElem?_eq_none (by rw [List.length_append, List.length_singleton]; omega),
        List.getElem?_eq_none (Nat.le_of_lt hgt)]

section Growing

variable {forest : Forest N D}

/-- The forest with one more slot, which is empty. -/
def skip (forest : Forest N D) : Forest N D := { forest with slots := forest.slots ++ [none] }

/-- The forest with one more slot, in which a tree stands. -/
def plant (forest : Forest N D) (tree : Tree N) (directory : Directory) : Forest N D :=
  { forest with
    slots := forest.slots ++ [some (.ofTree tree)]
    directory
    size := forest.size + tree.size }

theorem plot?_skip (forest : Forest N D) (slot : Nat) :
    forest.skip.plot? slot = forest.plot? slot := by
  show ((forest.slots ++ [none])[slot]?).join = _
  rw [join_getElem?_push]
  split
  · next heq =>
    rw [plot?, heq, List.getElem?_eq_none (Nat.le_refl _)]
    rfl
  · rfl

/-- A planted tree has the new slot, and the other slots stay as they are. -/
theorem plot?_plant (forest : Forest N D) (tree : Tree N) (directory : Directory) (slot : Nat) :
    (forest.plant tree directory).plot? slot =
      if slot = forest.slots.length then some (.ofTree tree) else forest.plot? slot :=
  join_getElem?_push _ _ _

theorem houses_skip {slot index : Nat} :
    forest.skip.Houses slot index ↔ forest.Houses slot index := by
  rw [Houses, plot?_skip]
  rfl

/-- A planted tree houses its points, and the other slots house what they did. -/
theorem houses_plant {tree : Tree N} {directory : Directory} {slot index : Nat} :
    (forest.plant tree directory).Houses slot index ↔
      (slot = forest.slots.length ∧ index ∈ tree.order) ∨ forest.Houses slot index := by
  rw [Houses, plot?_plant]
  by_cases heq : slot = forest.slots.length
  · rw [if_pos heq]
    constructor
    · rintro ⟨plot, hplot, hindex⟩
      obtain rfl := Option.some.inj hplot
      rw [Plot.livePoints_ofTree, Array.mem_toList_iff] at hindex
      exact .inl ⟨heq, hindex⟩
    · rintro (⟨-, hindex⟩ | ⟨plot, hplot, -⟩)
      · refine ⟨_, rfl, ?_⟩
        rwa [Plot.livePoints_ofTree, Array.mem_toList_iff]
      · have hlt := (List.getElem?_eq_some_iff.mp (plot?_eq_some.mp hplot)).1
        omega
  · rw [if_neg heq]
    constructor
    · exact .inr
    · rintro (⟨heq', -⟩ | hhouse)
      · exact absurd heq' heq
      · exact hhouse

/-- A slot without a tree keeps a forest sound. -/
theorem Sound.skip (h : forest.Sound) : forest.skip.Sound := by
  constructor
  case plot =>
    intro slot plot hplot
    rw [plot?_skip] at hplot
    exact h.plot slot plot hplot
  case counted =>
    intro slot plot hplot
    rw [plot?_skip] at hplot
    exact h.counted slot plot hplot
  case home =>
    intro index slot
    rw [houses_skip]
    exact h.home index slot
  case size_eq =>
    show forest.size = (List.flatMap _ (forest.slots ++ [none])).length
    rw [List.flatMap_append, h.size_eq]
    exact (congrArg List.length (List.append_nil _)).symm
  case counter_le => exact h.counter_le

/-- A tree whose digit is set and whose points are new keeps a forest sound. -/
theorem Sound.plant (h : forest.Sound) {tree : Tree N} {directory : Directory}
    (hcounted : forest.counter.testBit forest.slots.length = true)
    (hput : putDistinct forest.slots.length tree.order.toList forest.directory = .ok directory) :
    (forest.plant tree directory).Sound := by
  obtain ⟨hnodup, hnone, rfl⟩ := putDistinct_eq_ok.mp hput
  constructor
  case plot =>
    intro slot plot hplot
    rw [plot?_plant] at hplot
    split at hplot
    · obtain rfl := Option.some.inj hplot
      exact Plot.sound_ofTree hnodup
    · exact h.plot slot plot hplot
  case counted =>
    intro slot plot hplot
    rw [plot?_plant] at hplot
    split at hplot
    · next heq =>
      rw [heq]
      exact hcounted
    · exact h.counted slot plot hplot
  case home =>
    intro index slot
    rw [houses_plant, ← Array.mem_toList_iff, ← h.home]
    show (forest.directory.putAll _ tree.order.toList).slot? index = some slot ↔ _
    rw [Directory.slot?_putAll]
    by_cases hin : index ∈ tree.order.toList
    · rw [if_pos hin, hnone index hin, Option.some_inj]
      constructor
      · rintro rfl
        exact .inl ⟨rfl, hin⟩
      · rintro (⟨rfl, -⟩ | hslot)
        · rfl
        · nomatch hslot
    · rw [if_neg hin]
      constructor
      · exact .inr
      · rintro (⟨-, hin'⟩ | hslot)
        · exact absurd hin' hin
        · exact hslot
  case size_eq =>
    show forest.size + tree.size =
      (List.flatMap _ (forest.slots ++ [some (Plot.ofTree tree)])).length
    rw [List.flatMap_append, List.length_append, h.size_eq, live]
    congr 1
    rw [List.flatMap_singleton, Option.elim_some, Plot.livePoints_ofTree, Array.length_toList]
    rfl
  case counter_le => exact h.counter_le

end Growing

variable [Coordinate N] [Storable N]

/-- The next slot that is read is empty, or a tree over the same source stands in it that passed
all checks. -/
theorem readSlots_succ_eq_ok {sourceSize count : Nat} {forest : Forest N D} {stream : Stream}
    {final : Forest N D × Stream} :
    readSlots sourceSize (count + 1) forest stream = .ok final ↔
      ∃ present after, Reader.word 1 stream = .ok (present, after) ∧
        ((present = 0 ∧ readSlots sourceSize count forest.skip after = .ok final) ∨
          present ≠ 0 ∧ forest.counter.testBit forest.slots.length = true ∧
            ∃ tree rest, Tree.read after = .ok ((tree, sourceSize), rest) ∧
              tree.dims = forest.dims ∧
              (∀ limit, forest.options.maxNodes = some limit → tree.nodes ≤ limit) ∧
              ∃ directory, putDistinct forest.slots.length tree.order.toList forest.directory =
                  .ok directory ∧
                readSlots sourceSize count (forest.plant tree directory) rest = .ok final) := by
  rw [readSlots, Reader.bind_eq_ok]
  refine exists₂_congr fun present after => and_congr_right fun _ => ?_
  dsimp only
  by_cases hvacant : present = 0
  · rw [if_pos hvacant]
    simp only [hvacant, true_and, ne_eq, not_true_eq_false, false_and, or_false]
    rfl
  rw [if_neg hvacant, Reader.guard_eq_ok, Bool.not_eq_true', Bool.not_eq_false]
  simp only [hvacant, false_and, false_or, ne_eq, not_false_eq_true, true_and]
  refine and_congr_right fun _ => ?_
  -- What happens once a tree was read and its size is known to be allowed.
  have hput (tree : Tree N) (rest : Stream) :
      ((liftM (putDistinct forest.slots.length tree.order.toList forest.directory) :
          Reader Directory) >>= fun directory =>
        readSlots sourceSize count (forest.plant tree directory)) rest = .ok final ↔
      ∃ directory, putDistinct forest.slots.length tree.order.toList forest.directory =
          .ok directory ∧
        readSlots sourceSize count (forest.plant tree directory) rest = .ok final := by
    rw [Reader.bind_eq_ok]
    refine exists_congr fun directory => ?_
    simp only [Reader.lift_eq_ok]
    constructor
    · rintro ⟨_, ⟨hput, rfl⟩, hrest⟩
      exact ⟨hput, hrest⟩
    · rintro ⟨hput, hrest⟩
      exact ⟨rest, ⟨hput, rfl⟩, hrest⟩
  constructor
  · intro h
    obtain ⟨⟨tree, treeSource⟩, rest, hread, h⟩ := Reader.bind_eq_ok.mp h
    obtain ⟨hmatch, h⟩ := Reader.guard_eq_ok.mp h
    rw [not_or, not_not, not_not] at hmatch
    obtain ⟨rfl, hdims⟩ := hmatch
    refine ⟨tree, rest, hread, hdims, ?_⟩
    cases hlimit : forest.options.maxNodes with
    | none =>
      rw [hlimit] at h
      exact ⟨fun _ hnone => (nomatch hnone), (hput tree rest).mp h⟩
    | some limit =>
      rw [hlimit] at h
      obtain ⟨hle, h⟩ := Reader.guard_eq_ok.mp h
      exact ⟨fun _ hsome => Option.some.inj hsome ▸ Nat.le_of_not_lt hle, (hput tree rest).mp h⟩
  · rintro ⟨tree, rest, hread, hdims, hlimit, h⟩
    refine Reader.bind_eq_ok.mpr ⟨_, rest, hread, Reader.guard_eq_ok.mpr ⟨?_, ?_⟩⟩
    · exact not_or.mpr ⟨not_not.mpr rfl, not_not.mpr hdims⟩
    cases hcap : forest.options.maxNodes with
    | none => exact (hput tree rest).mpr h
    | some limit =>
      exact Reader.guard_eq_ok.mpr ⟨Nat.not_lt.mpr (hlimit limit hcap), (hput tree rest).mpr h⟩

/-- Slots that are read and accepted make a sound forest. -/
theorem Sound.readSlots {sourceSize count : Nat} {forest final : Forest N D}
    {stream rest : Stream} (hsound : forest.Sound)
    (h : readSlots sourceSize count forest stream = .ok (final, rest)) : final.Sound := by
  induction count generalizing forest stream with
  | zero =>
    obtain ⟨rfl, -⟩ := Prod.mk.inj (Except.ok.inj h)
    exact hsound
  | succ count ih =>
    obtain ⟨present, after, -, hcases⟩ := readSlots_succ_eq_ok.mp h
    rcases hcases with ⟨-, h⟩ | ⟨-, hcounted, tree, rest, -, -, -, directory, hput, h⟩
    · exact ih hsound.skip h
    · exact ih (hsound.plant hcounted hput) h

/-- A forest is read over a source with the axes and the size that its header names, from slots
that its counter has digits for. -/
theorem load_eq_ok {source : Source N} {maxNodes : Option Nat} {metric : Metric N D}
    {stream : Stream} {final : Forest N D × Stream} :
    load source maxNodes metric stream = .ok final ↔
      ∃ header after, Reader.take headerSize stream = .ok (header, after) ∧
        checkHeader N forestMark .noForestFormat header = .ok () ∧
        wordAt header 2 2 = source.dims ∧ wordAt header 8 4 = source.size ∧
        wordAt header 20 1 ≤ maxSlots ∧ wordAt header 12 8 >>> wordAt header 20 1 = 0 ∧
        ∃ begun, empty (wordAt header 2 2) ⟨wordAt header 4 4, maxNodes⟩ metric = .ok begun ∧
          readSlots (wordAt header 8 4) (wordAt header 20 1)
            { begun with counter := wordAt header 12 8 } after = .ok final := by
  rw [load, Reader.bind_eq_ok]
  refine exists₂_congr fun header after => and_congr_right fun _ => ?_
  constructor
  · intro h
    obtain ⟨⟨⟩, _, hlift, h⟩ := Reader.bind_eq_ok.mp h
    obtain ⟨hcheck, rfl⟩ := Reader.lift_eq_ok.mp hlift
    obtain ⟨hdims, h⟩ := Reader.guard_eq_ok.mp h
    obtain ⟨hsize, h⟩ := Reader.guard_eq_ok.mp h
    obtain ⟨hslots, h⟩ := Reader.guard_eq_ok.mp h
    rw [not_or, Nat.not_lt, not_not] at hslots
    refine ⟨hcheck, not_not.mp hdims, not_not.mp hsize, hslots.1, hslots.2, ?_⟩
    dsimp only at h
    cases hempty : empty (wordAt header 2 2) ⟨wordAt header 4 4, maxNodes⟩ metric with
    | error e =>
      rw [hempty] at h
      nomatch h
    | ok begun =>
      rw [hempty] at h
      exact ⟨begun, rfl, h⟩
  · rintro ⟨hcheck, hdims, hsize, hslots, hcounter, begun, hempty, h⟩
    refine Reader.bind_eq_ok.mpr ⟨(), after, Reader.lift_eq_ok.mpr ⟨hcheck, rfl⟩, ?_⟩
    refine Reader.guard_eq_ok.mpr ⟨not_not.mpr hdims, Reader.guard_eq_ok.mpr ⟨not_not.mpr hsize, ?_⟩⟩
    refine Reader.guard_eq_ok.mpr ⟨not_or.mpr ⟨Nat.not_lt.mpr hslots, not_not.mpr hcounter⟩, ?_⟩
    dsimp only
    rw [hempty]
    exact h

/-- Whatever the bytes were, a forest that was read keeps the invariant. -/
theorem sound_load {source : Source N} {maxNodes : Option Nat} {metric : Metric N D}
    {forest : Forest N D} {stream rest : Stream}
    (h : load source maxNodes metric stream = .ok (forest, rest)) : forest.Sound := by
  obtain ⟨header, after, -, -, -, -, -, -, begun, hempty, h⟩ := load_eq_ok.mp h
  obtain ⟨-, -, -, rfl⟩ := empty_eq_ok.mp hempty
  -- The count was read from eight bytes.
  exact (sound_empty _ _ metric (Nat.le_of_lt_succ (wordAt_lt header 12 8))).readSlots h

end Forest

end Proximity
