import Mathlib
import Proximity.Proofs.Forest.Loading
import Proximity.Proofs.Forest.Reachable
import Proximity.Proofs.Forest.Steps
import Proximity.Proofs.Forest.Twins

/-!
# Slots as digits

A forest counts its insertions in binary. Its slots are the digits of that count: there are as many
as it has, and one is occupied exactly if it is set. The tree in a slot has at most as many points
as the digit stands for, since an insertion carries over 1 + 1 + 2 + 4 + … of them, and exactly as
many as long as nothing was removed. What was removed takes up room until it is carried over.
-/

namespace Proximity

variable {N D : Type}

/-- All digits that a carry runs through are set. -/
theorem testBit_of_lt_carry {digits n digit : Nat} (h : digit < carry digits n) :
    n.testBit digit = true := by
  induction digits generalizing n digit with
  | zero => exact absurd h (Nat.not_lt_zero _)
  | succ digits ih =>
    rw [carry] at h
    split at h
    · next hodd =>
      cases digit with
      | zero => simpa [Nat.testBit_zero] using hodd
      | succ digit =>
        rw [Nat.testBit_succ]
        exact ih (Nat.lt_of_succ_lt_succ h)
    · exact absurd h (Nat.not_lt_zero _)

/-- A number has so many digits at most if none is set from there on. -/
theorem size_le_iff_testBit {n digits : Nat} :
    n.size ≤ digits ↔ ∀ digit, digits ≤ digit → n.testBit digit = false := by
  rw [Nat.size_le]
  constructor
  · intro h digit hdigit
    exact Nat.testBit_lt_two_pow (h.trans_le (Nat.pow_le_pow_right Nat.two_pos hdigit))
  · exact Nat.lt_pow_two_of_testBit n

/-- The digit that the carry stops at is the first one, if it is beyond all others. -/
theorem size_succ {digits n : Nat} (h : n + 1 < 2 ^ digits) :
    (n + 1).size = max (carry digits n + 1) n.size := by
  refine eq_of_forall_ge_iff fun bound => ?_
  rw [max_le_iff, size_le_iff_testBit, size_le_iff_testBit]
  simp only [(carry_spec h).2]
  constructor
  · intro hnone
    have hcarry : carry digits n + 1 ≤ bound := by
      by_contra hlt
      have hset := hnone (carry digits n) (by omega)
      simp at hset
    refine ⟨hcarry, fun digit hdigit => ?_⟩
    have hdigit' := hnone digit hdigit
    rwa [if_neg (by omega), if_neg (by omega)] at hdigit'
  · rintro ⟨hcarry, hnone⟩ digit hdigit
    rw [if_neg (by omega), if_neg (by omega)]
    exact hnone digit hdigit

namespace Forest

/-- How many points the tree in a slot refers to, those removed since included. -/
def held (forest : Forest N D) (slot : Nat) : Nat :=
  (forest.plot? slot).elim 0 fun plot => plot.tree.size

/-- How many of them were removed since. -/
def gone (forest : Forest N D) (slot : Nat) : Nat :=
  (forest.plot? slot).elim 0 fun plot => plot.removed.length

section Carrying

variable {forest : Forest N D} {slot : Nat}

/-- One slot more adds the points alive in it. -/
theorem pointsBelow_succ (forest : Forest N D) (slot : Nat) :
    forest.pointsBelow (slot + 1) = forest.pointsBelow slot ++ forest.alive slot := by
  rw [pointsBelow_eq, pointsBelow_eq, List.range_succ, List.flatMap_append, List.flatMap_singleton]

/-- The points of a slot are alive or gone. -/
theorem Sound.length_alive (h : forest.Sound) (slot : Nat) :
    (forest.alive slot).length + forest.gone slot = forest.held slot := by
  rw [alive, gone, held]
  cases hplot : forest.plot? slot with
  | none => rfl
  | some plot => exact (h.plot slot plot hplot).length_livePoints

/-- The points below a slot are alive or gone. -/
theorem Sound.length_pointsBelow (h : forest.Sound) (slot : Nat) :
    (forest.pointsBelow slot).length + ∑ lower ∈ Finset.range slot, forest.gone lower =
      ∑ lower ∈ Finset.range slot, forest.held lower := by
  induction slot with
  | zero => rfl
  | succ slot ih =>
    have halive := h.length_alive slot
    rw [pointsBelow_succ, List.length_append, Finset.sum_range_succ, Finset.sum_range_succ]
    omega

/-- Slots that hold no more points than their digits stand for hold fewer than the next digit. -/
theorem sum_held_lt (h : ∀ lower, forest.held lower ≤ 2 ^ lower) (slot : Nat) :
    ∑ lower ∈ Finset.range slot, forest.held lower < 2 ^ slot := by
  induction slot with
  | zero => simp
  | succ slot ih =>
    have hheld := h slot
    rw [Finset.sum_range_succ, pow_succ]
    omega

/-- Slots that hold as many points as their digits stand for hold one fewer than the next digit. -/
theorem sum_held_eq (h : ∀ lower < slot, forest.held lower = 2 ^ lower) :
    ∑ lower ∈ Finset.range slot, forest.held lower + 1 = 2 ^ slot := by
  induction slot with
  | zero => rfl
  | succ slot ih =>
    have hbelow := ih fun lower hlower => h lower (Nat.lt_succ_of_lt hlower)
    have hheld := h slot (Nat.lt_succ_self slot)
    rw [Finset.sum_range_succ, pow_succ]
    omega

/-- A slot that is settled holds its tree, and the slots below it hold nothing. -/
theorem held_settle (forest : Forest N D) (slot other : Nat) (tree : Tree N) :
    (forest.settle slot tree).held other =
      if other < slot then 0 else if other = slot then tree.size else forest.held other :=
  elim_plot?_settle forest slot other tree 0 fun plot => plot.tree.size

/-- Settling forgets what was removed in a slot and below it. -/
theorem gone_settle (forest : Forest N D) (slot other : Nat) (tree : Tree N) :
    (forest.settle slot tree).gone other =
      if other < slot then 0 else if other = slot then 0 else forest.gone other :=
  elim_plot?_settle forest slot other tree 0 fun plot => plot.removed.length

/-- Whoever is noted as removed stays in the tree. -/
theorem held_strike {plot : Plot N} (hplot : forest.plot? slot = some plot) (index other : Nat) :
    (forest.strike slot plot index).held other = forest.held other := by
  rw [held, plot?_strike hplot]
  split
  · next heq =>
    subst heq
    rw [held, hplot]
    rfl
  · rfl

/-- Striking a point out empties no slot. -/
theorem isSome_plot?_strike {plot : Plot N} (hplot : forest.plot? slot = some plot)
    (index other : Nat) :
    ((forest.strike slot plot index).plot? other).isSome = (forest.plot? other).isSome := by
  rw [plot?_strike hplot]
  split
  · next heq => rw [heq, hplot, Option.isSome_some, Option.isSome_some]
  · rfl

end Carrying

/-- What changes a forest. -/
inductive Change (N : Type) where
  /-- Inserts a point of a source. -/
  | insert (source : Source N) (index : Nat)
  | remove (index : Nat)

/-- A forest and how often it was changed. -/
structure Tally (N D : Type) where
  forest : Forest N D
  /-- The insertions that succeeded. -/
  inserted : Nat
  /-- The removals that found their point. -/
  removed : Nat

/-- The forest after a change. One that fails leaves all as it is. -/
def Tally.change [Coordinate N] (tally : Tally N D) : Change N → Tally N D
  | .insert source index =>
    match tally.forest.insert source index with
    | .ok forest => { tally with forest, inserted := tally.inserted + 1 }
    | .error _ => tally
  | .remove index =>
    match tally.forest.remove index with
    | (forest, true) => { tally with forest, removed := tally.removed + 1 }
    | (forest, false) => { tally with forest }

/-- The forest after some changes, which are counted. -/
def tally [Coordinate N] (forest : Forest N D) (changes : List (Change N)) : Tally N D :=
  changes.foldl Tally.change ⟨forest, 0, 0⟩

/-- Whether the slots of a forest are the digits of the number of insertions. -/
structure Tally.Digits (tally : Tally N D) : Prop where
  sound : tally.forest.Sound
  counter_eq : tally.forest.counter = tally.inserted
  length_eq : tally.forest.slots.length = tally.forest.counter.size
  occupied : ∀ slot, (tally.forest.plot? slot).isSome = tally.forest.counter.testBit slot
  held_le : ∀ slot, tally.forest.held slot ≤ 2 ^ slot
  /-- As long as no removal found its point, nothing is gone and every tree has its full size. -/
  intact : tally.removed = 0 → ∀ slot, tally.forest.gone slot = 0 ∧
    ((tally.forest.plot? slot).isSome → tally.forest.held slot = 2 ^ slot)

namespace Tally.Digits

variable {tally : Tally N D}

/-- All slots that a carry runs through are occupied. -/
theorem isSome_of_lt_carry (h : tally.Digits) {lower : Nat}
    (hlower : lower < carry 64 tally.forest.counter) :
    (tally.forest.plot? lower).isSome = true := by
  rw [h.occupied, testBit_of_lt_carry hlower]

/-- A forest that is begun has counted nothing. -/
theorem empty {dims : Nat} {options : BuildOptions} {metric : Metric N D} {forest : Forest N D}
    (h : Forest.empty dims options metric = .ok forest) : (⟨forest, 0, 0⟩ : Tally N D).Digits := by
  obtain ⟨-, -, -, rfl⟩ := empty_eq_ok.mp h
  constructor
  case sound => exact sound_empty _ _ _ (Nat.zero_le _)
  case counter_eq => rfl
  case length_eq => exact Nat.size_zero.symm
  case occupied =>
    intro slot
    exact (Nat.zero_testBit slot).symm
  case held_le =>
    intro slot
    exact Nat.zero_le _
  case intact =>
    intro _ slot
    exact ⟨rfl, fun hsome => absurd hsome Bool.false_ne_true⟩

variable [Coordinate N] [LawfulCoordinate N] {source : Source N} {index : Nat} {tree : Tree N}

/-- What is carried over is all that the slots below hold but what is gone, and the new point. -/
theorem size_tree (h : tally.Digits) (hinserted : tally.forest.Inserted source index tree) :
    tree.size + ∑ lower ∈ Finset.range (carry 64 tally.forest.counter), tally.forest.gone lower =
      ∑ lower ∈ Finset.range (carry 64 tally.forest.counter), tally.forest.held lower + 1 := by
  have hlength := hinserted.perm.length_eq
  have hbelow := h.sound.length_pointsBelow (carry 64 tally.forest.counter)
  rw [Array.length_toList, length_merged] at hlength
  rw [Tree.size]
  omega

/-- An insertion that succeeds counts on. -/
theorem settle (h : tally.Digits) (hinserted : tally.forest.Inserted source index tree) :
    ({ tally with
        forest := tally.forest.settle (carry 64 tally.forest.counter) tree
        inserted := tally.inserted + 1 } : Tally N D).Digits := by
  have hdigits : tally.forest.counter + 1 < 2 ^ 64 := by
    have hroom := hinserted.counter_lt
    rw [maxWord64] at hroom
    omega
  have hsize := h.size_tree hinserted
  constructor
  case sound => exact hinserted.sound h.sound
  case counter_eq => exact congrArg (· + 1) h.counter_eq
  case length_eq =>
    show (tally.forest.settle _ tree).slots.length = (tally.forest.counter + 1).size
    rw [length_settle, size_succ hdigits, h.length_eq]
  case occupied =>
    intro slot
    show _ = (tally.forest.counter + 1).testBit slot
    rw [plot?_settle, (carry_spec hdigits).2]
    split
    · rfl
    split
    · rfl
    · exact h.occupied slot
  case held_le =>
    intro slot
    rw [held_settle]
    split
    · exact Nat.zero_le _
    split
    · next heq =>
      have hlt := sum_held_lt h.held_le (carry 64 tally.forest.counter)
      rw [heq]
      omega
    · exact h.held_le slot
  case intact =>
    intro hnone slot
    have hgone : ∑ lower ∈ Finset.range (carry 64 tally.forest.counter),
        tally.forest.gone lower = 0 :=
      Finset.sum_eq_zero fun lower _ => (h.intact hnone lower).1
    rw [gone_settle, held_settle, plot?_settle]
    split
    · exact ⟨rfl, fun hsome => absurd hsome Bool.false_ne_true⟩
    split
    · next heq =>
      refine ⟨rfl, fun _ => ?_⟩
      have hsum := sum_held_eq fun lower hlower =>
        (h.intact hnone lower).2 (h.isSome_of_lt_carry hlower)
      rw [heq]
      omega
    · exact h.intact hnone slot

omit [Coordinate N] [LawfulCoordinate N] in
/-- A removal that finds its point leaves the count, and the points that trees refer to. -/
theorem strike (h : tally.Digits) {slot : Nat} {plot : Plot N}
    (hplot : tally.forest.plot? slot = some plot) (hlive : index ∈ plot.livePoints) :
    ({ tally with
        forest := tally.forest.strike slot plot index
        removed := tally.removed + 1 } : Tally N D).Digits := by
  constructor
  case sound => exact h.sound.strike hplot hlive
  case counter_eq => exact h.counter_eq
  case length_eq => exact List.length_set.trans h.length_eq
  case occupied =>
    intro other
    rw [isSome_plot?_strike hplot]
    exact h.occupied other
  case held_le =>
    intro other
    rw [held_strike hplot]
    exact h.held_le other
  case intact => exact fun hnone => absurd hnone (Nat.succ_ne_zero _)

/-- Every change keeps the slots in step with the count. -/
theorem change (h : tally.Digits) (change : Change N) : (tally.change change).Digits := by
  cases change with
  | insert source index =>
    rw [Tally.change]
    split
    · next forest hinsert =>
      obtain ⟨tree, hinserted, rfl⟩ := insert_eq_ok hinsert
      exact h.settle hinserted
    · exact h
  | remove index =>
    rw [Tally.change]
    rcases h.sound.remove_cases index with ⟨-, heq⟩ | ⟨slot, plot, hplot, hlive, heq⟩
    · rw [heq]
      exact h
    · rw [heq]
      exact h.strike hplot hlive

/-- Any changes keep the slots in step with the count. -/
theorem foldl (h : tally.Digits) (changes : List (Change N)) :
    (changes.foldl Tally.change tally).Digits := by
  induction changes generalizing tally with
  | nil => exact h
  | cons change changes ih => exact ih (h.change change)

/-- An insertion that succeeds carries over what is alive in the slots below, all of which are
occupied, and leaves behind what is gone. -/
theorem merge (h : tally.Digits) (hinserted : tally.forest.Inserted source index tree) :
    tree.order.toList.Nodup ∧
    ∀ lower < carry 64 tally.forest.counter, ∃ plot, tally.forest.plot? lower = some plot ∧
      ∀ point ∈ plot.removed, point ≠ index → tally.forest.contains point = false →
        point ∉ tree.order := by
  refine ⟨hinserted.order_nodup h.sound, fun lower hlower => ?_⟩
  obtain ⟨plot, hplot⟩ := Option.isSome_iff_exists.mp (h.isSome_of_lt_carry hlower)
  refine ⟨plot, hplot, fun point _ hne habsent hin => ?_⟩
  rcases hinserted.mem_order.mp hin with heq | ⟨home, -, hhouse⟩
  · exact hne heq
  · rw [(h.sound.contains_iff point).mpr ⟨home, hhouse⟩] at habsent
    nomatch habsent

end Tally.Digits

/-- However a forest was changed since it was begun, its counter is the number of insertions that
succeeded, its slots are the digits of the counter, and the tree in one refers to at most as many
points as the digit stands for, to exactly as many if nothing was ever removed. The next insertion
to succeed merges the slots that the carry runs through. The new tree takes over the points alive in
them with the new one, and no other that was removed from them. -/
theorem digits_of_changes [Coordinate N] [LawfulCoordinate N] {dims : Nat}
    {options : BuildOptions} {metric : Metric N D} {forest : Forest N D} {changes : List (Change N)}
    {tally : Tally N D} (hempty : empty dims options metric = .ok forest)
    (htally : forest.tally changes = tally) :
    tally.forest.counter = tally.inserted ∧
    tally.forest.slots.length = tally.forest.counter.size ∧
    (∀ slot, (tally.forest.plot? slot).isSome = tally.forest.counter.testBit slot) ∧
    (∀ slot plot, tally.forest.plot? slot = some plot →
      plot.tree.size ≤ 2 ^ slot ∧ (tally.removed = 0 → plot.tree.size = 2 ^ slot)) ∧
    ∀ source index final, tally.forest.insert source index = .ok final →
      ∃ slot tree, slot = carry 64 tally.forest.counter ∧
        tally.forest.plot? slot = none ∧ final.plot? slot = some (.ofTree tree) ∧
        (∀ lower < slot, final.plot? lower = none) ∧
        (∀ upper, slot < upper → final.plot? upper = tally.forest.plot? upper) ∧
        tree.order.toList.Perm (tally.forest.pointsBelow slot ++ [index]) ∧
        tree.order.toList.Nodup ∧
        tree.size + ∑ lower ∈ Finset.range slot, tally.forest.gone lower =
          ∑ lower ∈ Finset.range slot, tally.forest.held lower + 1 ∧
        ∀ lower < slot, ∃ plot, tally.forest.plot? lower = some plot ∧
          ∀ point ∈ plot.removed, point ≠ index → tally.forest.contains point = false →
            point ∉ tree.order := by
  have h : tally.Digits := htally ▸ (Tally.Digits.empty hempty).foldl changes
  refine ⟨h.counter_eq, h.length_eq, h.occupied, ?_, ?_⟩
  · intro slot plot hplot
    have hheld : tally.forest.held slot = plot.tree.size := by rw [held, hplot, Option.elim_some]
    rw [← hheld]
    exact ⟨h.held_le slot, fun hnone => (h.intact hnone slot).2 (by rw [hplot, Option.isSome_some])⟩
  · intro source index final hinsert
    obtain ⟨tree, hinserted, rfl⟩ := insert_eq_ok hinsert
    obtain ⟨hnodup, hmerge⟩ := h.merge hinserted
    refine ⟨_, tree, rfl, h.sound.plot?_carry hinserted.counter_lt, ?_, ?_, ?_, hinserted.perm,
      hnodup, h.size_tree hinserted, hmerge⟩
    · rw [plot?_settle, if_neg (Nat.lt_irrefl _), if_pos rfl]
    · intro lower hlower
      rw [plot?_settle, if_pos hlower]
    · intro upper hupper
      rw [plot?_settle, if_neg (by omega), if_neg (by omega)]

end Forest

/-- A forest over bytes without points. -/
def byteBegun : Forest UInt8 Binary64 := ⟨1, ⟨2, none⟩, .squaredEuclidean, [], 0, .empty, 0⟩

/-- Changes that put a point back that is still in another tree, and one that fails. -/
def byteChanges : List (Forest.Change UInt8) :=
  [.insert byteSource 0, .insert byteSource 1, .remove 0, .remove 1, .insert byteSource 9,
    .insert byteSource 0]

/-- After these changes one insertion merges two trees, and leaves out the point that is gone from
the one and is not in the other. -/
theorem digits_of_changes_bytes :
    Forest.empty 1 ⟨2, none⟩ .squaredEuclidean = .ok byteBegun ∧
    ∃ tally final tree, byteBegun.tally byteChanges = tally ∧ tally.inserted = 3 ∧
      tally.removed = 2 ∧ tally.forest.slots.length = 2 ∧
      tally.forest.insert byteSource 2 = .ok final ∧ final.plot? 2 = some (.ofTree tree) ∧
      tree.size = 2 ∧ tree.order.toList.Perm [0, 2] ∧ 1 ∉ tree.order := by
  have hempty : Forest.empty 1 ⟨2, none⟩ .squaredEuclidean = .ok byteBegun := rfl
  obtain ⟨final, hinsert⟩ : ∃ final,
      (byteBegun.tally byteChanges).forest.insert byteSource 2 = .ok final := ⟨_, rfl⟩
  obtain ⟨-, -, -, -, hmerge⟩ :=
    Forest.digits_of_changes hempty (show byteBegun.tally byteChanges = _ from rfl)
  obtain ⟨slot, tree, hslot, -, hplot, -, -, hperm, -, -, hlower⟩ := hmerge _ _ _ hinsert
  obtain rfl : slot = 2 := hslot
  have hperm : tree.order.toList.Perm [0, 2] := hperm
  obtain ⟨plot, hplot', habsent⟩ := hlower 1 (by decide)
  obtain rfl : (⟨⟨1, 2, #[0, 1], ⟨[⟨1, 3⟩]⟩, .leaf 0 2⟩, [1, 0]⟩ : Plot UInt8) = plot :=
    Option.some.inj hplot'
  exact ⟨hempty, _, final, tree, rfl, rfl, rfl, rfl, hinsert, hplot, hperm.length_eq, hperm,
    habsent 1 (by decide) (by decide) rfl⟩

end Proximity
