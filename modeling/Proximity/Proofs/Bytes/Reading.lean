import Mathlib
import Proximity.Bytes.Stream
import Proximity.Proofs.Outcome

/-!
# Runs of a reader

A run of a reader is opened step by step like any run that may fail, only that each step also
leaves a stream for the next one.
-/

namespace Proximity.Reader

variable {α β : Type} {stream : Stream} {final : α × Stream}

/-- Two readers in a row succeed exactly if the second one does where the first one stops. -/
theorem bind_eq_ok {reader : Reader β} {next : β → Reader α} :
    (reader >>= next) stream = .ok final ↔
      ∃ value rest, reader stream = .ok (value, rest) ∧ next value rest = .ok final := by
  show reader stream >>= (fun step => next step.1 step.2) = .ok final ↔ _
  rw [Outcome.bind_eq_ok]
  exact Prod.exists

theorem pure_eq_ok {value : α} : (pure value : Reader α) stream = .ok final ↔
    final = (value, stream) := by
  show Except.ok (value, stream) = _ ↔ _
  rw [Except.ok.injEq]
  exact eq_comm

/-- A computation that reads nothing leaves the stream as it is. -/
theorem lift_eq_ok {run : Except Error α} {value : α} {rest : Stream} :
    (liftM run : Reader α) stream = .ok (value, rest) ↔ run = .ok value ∧ stream = rest := by
  cases run with
  | error e => exact ⟨fun h => (nomatch h), fun h => (nomatch h.1)⟩
  | ok a =>
    show Except.ok (a, stream) = _ ↔ _
    rw [Except.ok.injEq, Except.ok.injEq, Prod.mk.injEq]

/-- A run that is refused under a condition goes on only if it does not hold. -/
theorem guard_eq_ok {c : Prop} [Decidable c] {e : Error} {next : Reader α} :
    (if c then (throw e : Reader PUnit) >>= fun _ => next else next) stream = .ok final ↔
      ¬ c ∧ next stream = .ok final := by
  by_cases h : c
  · rw [if_pos h]
    exact ⟨fun hthrow => (nomatch hthrow), fun hboth => absurd h hboth.1⟩
  · rw [if_neg h]
    exact ⟨fun hnext => ⟨h, hnext⟩, And.right⟩

/-! ### What reads back what was written -/

/-- A reader goes on where a successful one before it stopped. -/
theorem bind_eq {reader : Reader β} {next : β → Reader α} {value : β} {rest : Stream}
    (h : reader stream = .ok (value, rest)) : (reader >>= next) stream = next value rest := by
  show reader stream >>= (fun step => next step.1 step.2) = _
  rw [h]
  rfl

theorem map_eq {reader : Reader β} {f : β → α} {value : β} {rest : Stream}
    (h : reader stream = .ok (value, rest)) :
    (f <$> reader) stream = .ok (f value, rest) := by
  show reader stream >>= (fun step => pure (f step.1, step.2)) = _
  rw [h]
  rfl

variable {ending : Ending} {rest : List UInt8}

/-- Bytes in front of a stream are taken off as they are. -/
theorem take_append {bytes : List UInt8} {count : Nat} (h : bytes.length = count) :
    take count ⟨bytes ++ rest, ending⟩ = .ok (bytes, ⟨rest, ending⟩) := by
  subst h
  simp only [take, List.splitAt_eq, List.take_left, List.drop_left, ite_true]

/-- What was taken stood at the front of the stream. -/
theorem eq_append_of_take {bytes : List UInt8} {count : Nat} {after : Stream}
    (h : take count stream = .ok (bytes, after)) :
    stream = ⟨bytes ++ after.bytes, after.ending⟩ ∧ bytes.length = count := by
  rw [take, List.splitAt_eq] at h
  dsimp only at h
  split at h
  · next hlength =>
    cases h
    exact ⟨by rw [List.take_append_drop], hlength⟩
  · nomatch h

/-- A word that fits its width is read back. -/
theorem word_toBytes {width n : Nat} (h : n < LittleEndian.capacity width) :
    word width ⟨LittleEndian.toBytes width n ++ rest, ending⟩ = .ok (n, ⟨rest, ending⟩) := by
  rw [word, map_eq (take_append (LittleEndian.length_toBytes width n)),
    LittleEndian.ofBytes_toBytes h]

/-- Items are read back one after the other if each is, whatever follows it. -/
theorem many_flatMap {item : Reader α} {encode : α → List UInt8}
    (h : ∀ a rest, item ⟨encode a ++ rest, ending⟩ = .ok (a, ⟨rest, ending⟩)) (items : List α)
    (read : Array α) :
    many item items.length read ⟨items.flatMap encode ++ rest, ending⟩ =
      .ok (read ++ items.toArray, ⟨rest, ending⟩) := by
  induction items generalizing read with
  | nil => simp [many]
  | cons a items ih =>
    rw [List.length_cons, many, List.flatMap_cons, List.append_assoc, h]
    simp only [ih]
    simp

end Proximity.Reader
