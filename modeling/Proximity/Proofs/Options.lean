import Mathlib
import Proximity.Options

/-!
# What building options allow

A tree may have leaves of any size that is not zero and fits a word, and one node more as long as
its place fits a word and no cap is reached.
-/

namespace Proximity

/-- A word keeps every number that it can hold. -/
theorem toWord32_of_le {n : Nat} (h : n ≤ maxWord32) : toWord32 n = n :=
  Nat.mod_eq_of_lt (Nat.lt_succ_of_le h)

/-- A word is never above the largest one. -/
theorem toWord32_le (n : Nat) : toWord32 n ≤ maxWord32 :=
  Nat.le_of_lt_succ (Nat.mod_lt n (Nat.succ_pos _))

/-- Nothing is left of the first number that is too large for a word. -/
theorem toWord32_succ : toWord32 (maxWord32 + 1) = 0 := Nat.mod_self _

/-- Whether there may be one more than so many, be it nodes or cells of a table. -/
def HasRoom (cap : Option Nat) (count : Nat) : Prop :=
  count < maxWord32 ∧ ∀ limit ∈ cap, count < limit

instance (cap : Option Nat) (count : Nat) : Decidable (HasRoom cap count) :=
  inferInstanceAs (Decidable (_ ∧ _))

theorem hasRoom_none {count : Nat} : HasRoom none count ↔ count < maxWord32 :=
  and_iff_left fun _ hlimit => nomatch hlimit

theorem hasRoom_some {cap count : Nat} :
    HasRoom (some cap) count ↔ count < maxWord32 ∧ count < cap := by
  simp only [HasRoom, Option.mem_some_iff, forall_eq']

/-- A node is refused exactly if there is no room for it, and the error names how many there are. -/
theorem requireRoomUnder_eq (cap : Option Nat) (count : Nat) : requireRoomUnder cap count =
    if HasRoom cap count then .ok () else .error (.nodesExhausted count) := by
  have hiff : (cap.any (· ≤ count) || maxWord32 ≤ count) = true ↔ ¬ HasRoom cap count := by
    rw [HasRoom, Bool.or_eq_true, decide_eq_true_eq, not_and_or, Nat.not_lt, or_comm]
    cases cap <;> simp
  unfold requireRoomUnder
  by_cases hroom : HasRoom cap count
  · rw [if_pos hroom, if_neg (fun hfull => hiff.mp hfull hroom)]
  · rw [if_neg hroom, if_pos (hiff.mpr hroom)]

theorem requireRoomUnder_eq_ok {cap : Option Nat} {count : Nat} {u : Unit} :
    requireRoomUnder cap count = .ok u ↔ HasRoom cap count := by
  rw [requireRoomUnder_eq]
  split
  · next hroom => exact ⟨fun _ => hroom, fun _ => rfl⟩
  · next hroom => exact ⟨fun h => (nomatch h), fun h => absurd h hroom⟩

namespace BuildOptions

variable {options : BuildOptions} {count : Nat} {u : Unit}

/-- Options are valid exactly if a leaf may hold some points and their number fits a word. -/
theorem validate_eq_ok :
    options.validate = .ok () ↔ options.leafSize ≠ 0 ∧ options.leafSize ≤ maxWord32 := by
  unfold validate
  split
  · next hzero => exact ⟨fun h => (nomatch h), fun h => absurd hzero h.1⟩
  next hzero =>
  split
  · next hlarge => exact ⟨fun h => (nomatch h), fun h => absurd hlarge (Nat.not_lt.mpr h.2)⟩
  · next hlarge => exact ⟨fun _ => ⟨hzero, Nat.le_of_not_lt hlarge⟩, fun _ => rfl⟩

theorem requireRoom_eq_ok : options.requireRoom count = .ok u ↔ HasRoom options.maxNodes count :=
  requireRoomUnder_eq_ok

end BuildOptions

end Proximity
