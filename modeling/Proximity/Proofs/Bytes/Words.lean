import Mathlib
import Proximity.Proofs.Bytes.Reading
import Proximity.Tree.Format

/-!
# Words in bytes

A word of so many bytes is below a power of 256, and it is found at its offset in other bytes.
Words written one after the other are read back in chunks.
-/

namespace Proximity

/-- A word of some bytes has as many values as these have patterns. -/
theorem LittleEndian.capacity_eq_pow (width : Nat) : capacity width = 256 ^ width := by
  induction width with
  | zero => rfl
  | succ width ih => rw [capacity, ih, pow_succ, Nat.mul_comm]

/-- A word read from anywhere fits its width, past the end of the bytes too. -/
theorem wordAt_lt (bytes : List UInt8) (offset width : Nat) :
    wordAt bytes offset width < 256 ^ width := by
  have hlength : ((bytes.drop offset).take width).length ≤ width := List.length_take_le _ _
  calc wordAt bytes offset width
      < 256 ^ ((bytes.drop offset).take width).length := by
        rw [← LittleEndian.capacity_eq_pow]
        exact LittleEndian.ofBytes_lt _
    _ ≤ 256 ^ width := Nat.pow_le_pow_right (by norm_num) hlength

/-- The bytes of a word that fits are read as that word. -/
theorem wordAt_eq {bytes : List UInt8} {offset width n : Nat}
    (hbytes : (bytes.drop offset).take width = LittleEndian.toBytes width n)
    (h : n < LittleEndian.capacity width) : wordAt bytes offset width = n := by
  rw [wordAt, hbytes, LittleEndian.ofBytes_toBytes h]

namespace Reader

/-- Words written one after another are read back in their order. -/
theorem wordsOf_flatMap {width : Nat} {items : List Nat}
    (h : ∀ n ∈ items, n < LittleEndian.capacity width) :
    wordsOf width items.length (items.flatMap (LittleEndian.toBytes width)) = items := by
  induction items with
  | nil => rfl
  | cons n items ih =>
    have hlength := LittleEndian.length_toBytes width n
    rw [List.length_cons, wordsOf, List.flatMap_cons, List.take_left' hlength,
      List.drop_left' hlength, ih fun m hm => h m (List.mem_cons_of_mem _ hm),
      LittleEndian.ofBytes_toBytes (h n List.mem_cons_self)]

theorem length_flatMap_toBytes (width : Nat) (items : List Nat) :
    (items.flatMap (LittleEndian.toBytes width)).length = items.length * width := by
  induction items with
  | nil => simp
  | cons n items ih =>
    rw [List.flatMap_cons, List.length_append, ih, LittleEndian.length_toBytes, List.length_cons]
    ring

/-- Words are read back in chunks if there are enough of these. -/
theorem words_flatMap {width chunks : Nat} {items : List Nat} {ending : Ending}
    {rest : List UInt8} (h : ∀ n ∈ items, n < LittleEndian.capacity width)
    (hchunks : items.length ≤ chunks * chunkLength) (read : Array Nat) :
    words width chunks items.length read
        ⟨items.flatMap (LittleEndian.toBytes width) ++ rest, ending⟩ =
      .ok (read ++ items.toArray, ⟨rest, ending⟩) := by
  induction chunks generalizing items read with
  | zero =>
    obtain rfl : items = [] := List.eq_nil_of_length_eq_zero (by omega)
    simp [words, pure, StateT.pure, Except.pure]
  | succ chunks ih =>
    -- The items of this chunk and those of the later ones.
    obtain ⟨first, later, rfl, hfirst⟩ : ∃ first later, items = first ++ later ∧
        first.length = min items.length chunkLength :=
      ⟨_, _, (List.take_append_drop (min items.length chunkLength) items).symm,
        List.length_take_of_le (Nat.min_le_left _ _)⟩
    have hlater : (first ++ later).length - min (first ++ later).length chunkLength =
        later.length := by
      rw [← hfirst, List.length_append, Nat.add_sub_cancel_left]
    have hbytes : (first.flatMap (LittleEndian.toBytes width)).length =
        min (first ++ later).length chunkLength * width := by
      rw [length_flatMap_toBytes, hfirst]
    have hroom : later.length ≤ chunks * chunkLength := by
      have hmul : (chunks + 1) * chunkLength = chunks * chunkLength + chunkLength := by ring
      omega
    rw [words, List.flatMap_append, List.append_assoc, bind_eq (take_append hbytes), hlater,
      ih (fun n hn => h n (List.mem_append_right _ hn)) hroom, ← hfirst,
      wordsOf_flatMap fun n hn => h n (List.mem_append_left _ hn)]
    congr 2
    apply Array.ext'
    simp only [Array.toList_append, Array.toList_appendList, List.append_assoc]

end Reader

end Proximity
