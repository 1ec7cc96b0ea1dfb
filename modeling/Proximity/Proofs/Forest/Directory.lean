import Mathlib
import Proximity.Forest.Format

/-!
# Slots and digits

A directory is read as a map from points to slots: putting points into a slot changes their
entries and no others. The carry of an insertion stops at the lowest digit that is not set, and
counting on changes this digit and the ones below only.
-/

namespace Proximity

namespace Directory

@[simp] theorem slot?_empty (index : Nat) : empty.slot? index = none := rfl

/-- An index is in the directory exactly if it has a slot there. -/
theorem contains_iff (directory : Directory) (index : Nat) :
    directory.contains index = true ↔ ∃ slot, directory.slot? index = some slot :=
  Option.isSome_iff_exists

/-- Growing the directory moves nothing in it. -/
theorem slot?_reach (directory : Directory) (index other : Nat) :
    (directory.reach index).slot? other = directory.slot? other := by
  rw [slot?, slot?, reach, Array.getElem?_append]
  split
  · rfl
  · next h =>
    rw [Array.getElem?_eq_none (Nat.le_of_not_lt h), Array.getElem?_replicate]
    split <;> rfl

/-- A directory grown to reach an index has a place for it. -/
theorem lt_size_reach (directory : Directory) (index : Nat) :
    index < (directory.reach index).slots.size := by
  rw [reach, Array.size_append, Array.size_replicate]
  omega

/-- Putting a point into a slot changes its entry only. -/
theorem slot?_put (directory : Directory) (slot index other : Nat) :
    (directory.put slot index).slot? other =
      if other = index then some slot else directory.slot? other := by
  rw [slot?, put, Array.getElem?_setIfInBounds]
  by_cases heq : index = other
  · rw [if_pos heq, if_pos (heq ▸ lt_size_reach directory index), if_pos heq.symm]
    rfl
  · rw [if_neg heq, if_neg (Ne.symm heq)]
    exact slot?_reach directory index other

/-- Putting points into a slot changes their entries only. -/
theorem slot?_putAll (directory : Directory) (slot : Nat) (points : List Nat) (other : Nat) :
    (directory.putAll slot points).slot? other =
      if other ∈ points then some slot else directory.slot? other := by
  induction points generalizing directory with
  | nil => rw [if_neg List.not_mem_nil]; rfl
  | cons index points ih =>
    have hstep : directory.putAll slot (index :: points) =
        (directory.put slot index).putAll slot points := rfl
    rw [hstep, ih, slot?_put]
    by_cases hin : other ∈ points
    · rw [if_pos hin, if_pos (List.mem_cons_of_mem _ hin)]
    · simp only [List.mem_cons, hin, or_false, ite_false]

/-- Erasing a point changes its entry only. -/
theorem slot?_erase (directory : Directory) (index other : Nat) :
    (directory.erase index).slot? other =
      if other = index then none else directory.slot? other := by
  rw [slot?, erase, Array.getElem?_setIfInBounds]
  by_cases heq : index = other
  · rw [if_pos heq, if_pos heq.symm]
    split <;> rfl
  · rw [if_neg heq, if_neg (Ne.symm heq)]
    rfl

end Directory

/-- Points are put one by one exactly if they are all different and were in no slot before. -/
theorem Forest.putDistinct_eq_ok {slot : Nat} {points : List Nat} {directory final : Directory} :
    putDistinct slot points directory = .ok final ↔
      points.Nodup ∧ (∀ index ∈ points, directory.slot? index = none) ∧
        final = directory.putAll slot points := by
  induction points generalizing directory with
  | nil =>
    constructor
    · intro h
      exact ⟨.nil, fun _ h => absurd h List.not_mem_nil, (Except.ok.inj h).symm⟩
    · rintro ⟨-, -, rfl⟩
      rfl
  | cons index points ih =>
    have habsent : directory.contains index = false ↔ directory.slot? index = none := by
      rw [Directory.contains, Option.isSome_eq_false_iff, Option.isNone_iff_eq_none]
    have hstep : directory.putAll slot (index :: points) =
        (directory.put slot index).putAll slot points := rfl
    rw [putDistinct, List.nodup_cons, List.forall_mem_cons, ← habsent, hstep]
    cases hcontains : directory.contains index with
    | true => exact ⟨fun h => (nomatch h), fun h => (nomatch h.2.1.1)⟩
    | false =>
      have hslots : (∀ other ∈ points, (directory.put slot index).slot? other = none) ↔
          index ∉ points ∧ ∀ other ∈ points, directory.slot? other = none := by
        simp only [Directory.slot?_put]
        constructor
        · intro h
          refine ⟨fun hin => by simpa using h index hin, fun other hin => ?_⟩
          have hother := h other hin
          split at hother
          · nomatch hother
          · exact hother
        · rintro ⟨hindex, h⟩ other hin
          rw [if_neg (ne_of_mem_of_not_mem hin hindex)]
          exact h other hin
      rw [if_neg Bool.false_ne_true, ih, hslots]
      tauto

/-- Counting on clears the digits below the carry, sets the one it stops at, which was not set,
and leaves the others. -/
theorem carry_spec {digits n : Nat} (h : n + 1 < 2 ^ digits) :
    n.testBit (carry digits n) = false ∧
      ∀ digit, (n + 1).testBit digit =
        if digit < carry digits n then false
        else if digit = carry digits n then true
        else n.testBit digit := by
  induction digits generalizing n with
  | zero => simp at h
  | succ digits ih =>
    rw [carry]
    by_cases hodd : n % 2 = 1
    · obtain ⟨hbit, hall⟩ := ih (n := n / 2) (by rw [pow_succ] at h; omega)
      rw [if_pos hodd, Nat.testBit_succ]
      refine ⟨hbit, ?_⟩
      intro digit
      cases digit with
      | zero => rw [if_pos (Nat.succ_pos _), Nat.testBit_zero]; simp; omega
      | succ digit =>
        have hhalf : (n + 1) / 2 = n / 2 + 1 := by omega
        rw [Nat.testBit_succ, Nat.testBit_succ, hhalf, hall]
        simp only [Nat.add_lt_add_iff_right, Nat.add_right_cancel_iff]
    · rw [if_neg hodd, Nat.testBit_zero]
      refine ⟨decide_eq_false hodd, ?_⟩
      intro digit
      cases digit with
      | zero => rw [if_neg (Nat.lt_irrefl _), if_pos rfl, Nat.testBit_zero]; simp; omega
      | succ digit =>
        have hhalf : (n + 1) / 2 = n / 2 := by omega
        rw [if_neg (Nat.not_lt_zero _), if_neg (Nat.succ_ne_zero _), Nat.testBit_succ,
          Nat.testBit_succ, hhalf]

end Proximity
