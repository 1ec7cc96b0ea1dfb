import Mathlib
import Proximity.Proofs.Options
import Proximity.Proofs.Outcome
import Proximity.Proofs.Tree.Format
import Proximity.Tree.Table

/-!
# Cells at their places

A table in which every chunk but the last one is full finds each cell at its place: a new cell
gets the next place, and neither it nor a change of a cell touches another one. So a node that is
laid out fills its own place and those that are new.
-/

namespace Proximity

namespace Table

variable {α : Type}

/-- Whether every chunk but the last one is full, and there is none too many. -/
structure Sound (table : Table α) : Prop where
  chunkLength_pos : 0 < table.chunkLength
  filled : ∀ (place : Nat) (chunk : Array α), table.chunks[place]? = some chunk →
    chunk.size = min table.chunkLength (table.size - place * table.chunkLength)
  size_le : table.size ≤ table.chunks.size * table.chunkLength
  lt_size : table.chunks.size * table.chunkLength < table.size + table.chunkLength

/-- A table without cells is sound. -/
theorem sound_empty {chunkLength : Nat} (h : 0 < chunkLength) (cap : Option Nat) :
    (empty (α := α) chunkLength cap).Sound := by
  refine ⟨h, ?_, Nat.zero_le _, ?_⟩
  · intro place chunk hchunk
    nomatch hchunk
  · show 0 * chunkLength < 0 + chunkLength
    omega

/-- A table is found room in, or a new cell is refused. -/
theorem push_eq_ok {table final : Table α} {cell : α} (h : table.push cell = .ok final) :
    requireRoomUnder table.cap table.size = .ok () ∧ final = { table with
      chunks := (if table.size = table.chunks.size * table.chunkLength then table.chunks.push #[]
        else table.chunks).modify
          ((if table.size = table.chunks.size * table.chunkLength then table.chunks.push #[]
            else table.chunks).size - 1) (·.push cell)
      size := table.size + 1 } := by
  obtain ⟨_, hroom, h⟩ := Outcome.bind_eq_ok.mp h
  exact ⟨hroom, (Except.ok.inj h).symm⟩

/-- A table with room takes every cell. -/
theorem push_of_room {table : Table α} (h : requireRoomUnder table.cap table.size = .ok ())
    (cell : α) : ∃ final, table.push cell = .ok final := by
  rw [push, h]
  exact ⟨_, rfl⟩

/-- A push adds one cell and leaves the cap. -/
theorem size_push {table final : Table α} {cell : α} (h : table.push cell = .ok final) :
    final.size = table.size + 1 ∧ final.cap = table.cap := by
  obtain ⟨-, rfl⟩ := push_eq_ok h
  exact ⟨rfl, rfl⟩

/-- A cap that is not reached makes no difference. -/
theorem push_uncapped {table final : Table α} {cell : α} (h : table.push cell = .ok final) :
    ({ table with cap := none } : Table α).push cell = .ok { final with cap := none } := by
  obtain ⟨hroom, rfl⟩ := push_eq_ok h
  have huncapped : requireRoomUnder none table.size = .ok () :=
    requireRoomUnder_eq_ok.mpr (hasRoom_none.mpr (requireRoomUnder_eq_ok.mp hroom).1)
  rw [push, huncapped]
  rfl

/-- Two new cells get the next two places. -/
theorem push_twice {table : Table α} (h : requireRoomUnder table.cap table.size = .ok ())
    (h' : requireRoomUnder table.cap (table.size + 1) = .ok ()) (cell : α) :
    ∃ one two, table.push cell = .ok one ∧ one.push cell = .ok two ∧
      two.size = table.size + 2 ∧ two.cap = table.cap := by
  obtain ⟨one, hone⟩ := push_of_room h cell
  obtain ⟨hsize, hcap⟩ := size_push hone
  rw [← hcap, ← hsize] at h'
  obtain ⟨two, htwo⟩ := push_of_room h' cell
  obtain ⟨hsize', hcap'⟩ := size_push htwo
  exact ⟨one, two, hone, htwo, hsize'.trans (congrArg Nat.succ hsize), hcap'.trans hcap⟩

section Chunks

variable {table : Table α}

/-- The chunk that the next cell goes to has all cells that belong there. -/
private theorem Sound.next (h : table.Sound) :
    ∃ chunks : Array (Array α), ∃ last : Array α,
      (if table.size = table.chunks.size * table.chunkLength then table.chunks.push #[]
        else table.chunks) = chunks ∧
      chunks.size = table.size / table.chunkLength + 1 ∧
      chunks[table.size / table.chunkLength]? = some last ∧
      last.size = table.size % table.chunkLength ∧
      (∀ place : Nat, last[place]? =
        (table.chunks[table.size / table.chunkLength]?).bind fun chunk => chunk[place]?) ∧
      ∀ place : Nat, place ≠ table.size / table.chunkLength →
        chunks[place]? = table.chunks[place]? := by
  have hpos := h.chunkLength_pos
  by_cases hfull : table.size = table.chunks.size * table.chunkLength
  · have hdiv : table.size / table.chunkLength = table.chunks.size := by
      rw [hfull, Nat.mul_div_cancel _ hpos]
    have hmod : table.size % table.chunkLength = 0 := by
      rw [hfull, Nat.mul_mod_left]
    refine ⟨table.chunks.push #[], #[], if_pos hfull, ?_, ?_, ?_, ?_, ?_⟩
    · rw [Array.size_push, hdiv]
    · rw [hdiv, Array.getElem?_push_size]
    · rw [hmod]
      rfl
    · intro place
      rw [hdiv, Array.getElem?_eq_none (Nat.le_refl _)]
      rfl
    · intro place hne
      rw [hdiv] at hne
      rw [Array.getElem?_push, if_neg hne]
  · have hle := h.size_le
    have hlt := h.lt_size
    have hchunks : table.chunks.size ≠ 0 := by
      intro hzero
      rw [hzero, Nat.zero_mul] at hle hfull
      omega
    have hmul : table.chunks.size * table.chunkLength =
        (table.chunks.size - 1) * table.chunkLength + table.chunkLength := by
      rw [← Nat.succ_mul, Nat.succ_eq_add_one, Nat.sub_add_cancel (by omega)]
    have hdiv : table.size / table.chunkLength = table.chunks.size - 1 := by
      apply Nat.div_eq_of_lt_le
      · omega
      · rw [Nat.sub_add_cancel (by omega)]
        omega
    have hmod : table.size % table.chunkLength =
        table.size - (table.chunks.size - 1) * table.chunkLength := by
      have hsum := Nat.div_add_mod table.size table.chunkLength
      rw [hdiv, Nat.mul_comm] at hsum
      omega
    have hlast : table.chunks.size - 1 < table.chunks.size := by omega
    have hget := Array.getElem?_eq_getElem hlast
    refine ⟨table.chunks, table.chunks[table.chunks.size - 1], if_neg hfull, ?_, ?_, ?_, ?_, ?_⟩
    · omega
    · rw [hdiv, hget]
    · rw [h.filled _ _ hget, hmod]
      omega
    · intro place
      rw [hdiv, hget]
      rfl
    · intro place _
      rfl

theorem get?_eq (table : Table α) (place : Nat) : table.get? place =
    (table.chunks[place / table.chunkLength]?).bind fun chunk =>
      chunk[place % table.chunkLength]? := rfl

/-- A place is in use exactly if it was handed out. -/
theorem Sound.get?_isSome (h : table.Sound) {place : Nat} (hplace : place < table.size) :
    ∃ chunk, table.chunks[place / table.chunkLength]? = some chunk ∧
      place % table.chunkLength < chunk.size := by
  have hpos := h.chunkLength_pos
  have hchunk : place / table.chunkLength < table.chunks.size :=
    (Nat.div_lt_iff_lt_mul hpos).mpr (hplace.trans_le h.size_le)
  have hget := Array.getElem?_eq_getElem hchunk
  have hmod := Nat.mod_lt place hpos
  have hsum := Nat.div_add_mod place table.chunkLength
  rw [Nat.mul_comm] at hsum
  refine ⟨_, hget, ?_⟩
  rw [h.filled _ _ hget]
  omega

/-- A new cell gets the next place and leaves the others alone. -/
theorem Sound.get?_push {final : Table α} {cell : α} (h : table.Sound)
    (hpush : table.push cell = .ok final) (place : Nat) :
    final.get? place = if place = table.size then some cell else table.get? place := by
  obtain ⟨-, rfl⟩ := push_eq_ok hpush
  obtain ⟨chunks, last, heq, hsize, hlast, hlength, hold, hother⟩ := h.next
  rw [get?_eq, get?_eq]
  simp only [heq, hsize, Nat.add_sub_cancel, Array.getElem?_modify]
  by_cases hsame : place / table.chunkLength = table.size / table.chunkLength
  · rw [if_pos hsame.symm, hsame, hlast, Option.map_some, Option.bind_some, Array.getElem?_push,
      hlength, hold]
    have hplace := Nat.div_add_mod place table.chunkLength
    have hnext := Nat.div_add_mod table.size table.chunkLength
    have hiff : place % table.chunkLength = table.size % table.chunkLength ↔
        place = table.size := by
      rw [hsame] at hplace
      omega
    simp only [hiff]
  · have hne : place ≠ table.size := by
      rintro rfl
      exact hsame rfl
    rw [if_neg (Ne.symm hsame), if_neg hne, hother _ hsame]

/-- A push keeps a table sound. -/
theorem Sound.push {final : Table α} {cell : α} (h : table.Sound)
    (hpush : table.push cell = .ok final) : final.Sound := by
  obtain ⟨-, rfl⟩ := push_eq_ok hpush
  obtain ⟨chunks, last, heq, hsize, hlast, hlength, -, hother⟩ := h.next
  have hpos := h.chunkLength_pos
  have hsum := Nat.div_add_mod table.size table.chunkLength
  have hmod := Nat.mod_lt table.size hpos
  rw [Nat.mul_comm] at hsum
  refine ⟨hpos, ?_, ?_, ?_⟩
  · intro place chunk hchunk
    simp only [heq, hsize, Nat.add_sub_cancel, Array.getElem?_modify] at hchunk ⊢
    split at hchunk
    · next hsame =>
      subst hsame
      rw [hlast, Option.map_some, Option.some_inj] at hchunk
      rw [← hchunk, Array.size_push, hlength]
      omega
    · next hne =>
      rw [hother place (Ne.symm hne)] at hchunk
      have hfilled := h.filled place chunk hchunk
      -- A chunk before the one that grows is full.
      have hbefore : place < table.size / table.chunkLength := by
        have hcount : place < chunks.size := by
          rw [← hother place (Ne.symm hne)] at hchunk
          exact (Array.getElem?_eq_some_iff.mp hchunk).1
        omega
      have hmul : (place + 1) * table.chunkLength ≤
          table.size / table.chunkLength * table.chunkLength :=
        Nat.mul_le_mul_right _ hbefore
      rw [Nat.succ_mul] at hmul
      omega
  · simp only [heq, Array.size_modify, hsize, Nat.succ_mul]
    omega
  · simp only [heq, Array.size_modify, hsize, Nat.succ_mul]
    omega

/-- A cell that is changed is found at its place. -/
theorem Sound.get?_set_self (h : table.Sound) {place : Nat} (hplace : place < table.size)
    (cell : α) : (table.set place cell).get? place = some cell := by
  obtain ⟨chunk, hchunk, hlt⟩ := h.get?_isSome hplace
  rw [get?_eq]
  simp only [set, Array.getElem?_modify, ite_true, hchunk, Option.map_some, Option.bind_some]
  exact Array.getElem?_setIfInBounds_self_of_lt hlt

/-- A change of a cell leaves the others alone. -/
theorem get?_set_ne {place other : Nat} (hne : other ≠ place) (cell : α) :
    (table.set place cell).get? other = table.get? other := by
  rw [get?_eq, get?_eq]
  simp only [set, Array.getElem?_modify]
  split
  · next hsame =>
    have hmod : place % table.chunkLength ≠ other % table.chunkLength := by
      intro hmod
      have hplace := Nat.div_add_mod place table.chunkLength
      have hother := Nat.div_add_mod other table.chunkLength
      rw [hsame, hmod] at hplace
      exact hne (hother.symm.trans hplace)
    cases table.chunks[other / table.chunkLength]? with
    | none => rfl
    | some chunk =>
      rw [Option.map_some, Option.bind_some, Option.bind_some]
      exact Array.getElem?_setIfInBounds_ne hmod
  · rfl

/-- Replacing a cell keeps a table sound. -/
theorem Sound.set (h : table.Sound) (place : Nat) (cell : α) : (table.set place cell).Sound := by
  refine ⟨h.chunkLength_pos, ?_, ?_, ?_⟩
  · intro other chunk hchunk
    simp only [Table.set, Array.getElem?_modify] at hchunk ⊢
    split at hchunk
    · obtain ⟨before, hbefore, rfl⟩ := Option.map_eq_some_iff.mp hchunk
      rw [Array.size_setIfInBounds]
      exact h.filled other before hbefore
    · exact h.filled other chunk hchunk
  · simp only [Table.set, Array.size_modify]
    exact h.size_le
  · simp only [Table.set, Array.size_modify]
    exact h.lt_size

end Chunks

end Table

namespace Node

variable {N : Type} {node : Node N} {place : Nat} {table final whole : Table (Cell N)}

/-- Whether a node and all below it are found in a table, each child where its parent says. -/
def Stands (table : Table (Cell N)) : Node N → (place : Nat) → Prop
  | .leaf first last, place => table.get? place = some (.leaf first last)
  | .branch axis split left right, place =>
    ∃ leftPlace rightPlace, table.get? place = some (.branch axis split leftPlace rightPlace) ∧
      left.Stands table leftPlace ∧ right.Stands table rightPlace

/-- A branch gets places for its children first and then lays these out one after the other. -/
theorem layOut_branch_eq_ok {axis : Nat} {split : N} {left right : Node N} :
    (branch axis split left right).layOut place table = .ok final ↔
      ∃ one two half, table.push .vacant = .ok one ∧ one.push .vacant = .ok two ∧
        left.layOut table.size (two.set place (.branch axis split table.size one.size)) =
          .ok half ∧ right.layOut one.size half = .ok final := by
  simp only [layOut, Outcome.bind_eq_ok]
  constructor
  · rintro ⟨one, hone, two, htwo, half, hleft, hright⟩
    exact ⟨one, two, half, hone, htwo, hleft, hright⟩
  · rintro ⟨one, two, half, hone, htwo, hleft, hright⟩
    exact ⟨one, hone, two, htwo, half, hleft, hright⟩

/-- Every node but the first gets a new place. -/
theorem size_layOut (h : node.layOut place table = .ok final) :
    final.size + 1 = table.size + node.count ∧ final.cap = table.cap := by
  induction node generalizing place table final with
  | leaf first last =>
    obtain rfl := Except.ok.inj h
    exact ⟨rfl, rfl⟩
  | branch axis split left right ihl ihr =>
    obtain ⟨first, second, middle, hfirst, hsecond, hleft, hright⟩ := layOut_branch_eq_ok.mp h
    obtain ⟨hsize, hcap⟩ := Table.size_push hfirst
    obtain ⟨hsize', hcap'⟩ := Table.size_push hsecond
    obtain ⟨hl, hlcap⟩ := ihl hleft
    obtain ⟨hr, hrcap⟩ := ihr hright
    have hset : (second.set place (.branch axis split table.size first.size)).size =
        second.size := rfl
    refine ⟨?_, hrcap.trans (hlcap.trans (hcap'.trans hcap))⟩
    rw [Node.count]
    omega

/-- A node that is laid out fills its own place and new ones. -/
theorem layOut_keeps (h : node.layOut place table = .ok final) (hsound : table.Sound)
    (hplace : place < table.size) :
    final.Sound ∧ ∀ other < table.size, other ≠ place → final.get? other = table.get? other := by
  induction node generalizing place table final with
  | leaf first last =>
    obtain rfl := Except.ok.inj h
    exact ⟨hsound.set _ _, fun other _ hne => Table.get?_set_ne hne _⟩
  | branch axis split left right ihl ihr =>
    obtain ⟨first, second, middle, hfirst, hsecond, hleft, hright⟩ := layOut_branch_eq_ok.mp h
    have hsize := (Table.size_push hfirst).1
    have hsize' := (Table.size_push hsecond).1
    have hsecondSound := (hsound.push hfirst).push hsecond
    have hset : (second.set place (.branch axis split table.size first.size)).size =
        second.size := rfl
    have hmiddle := (size_layOut hleft).1
    have hpos := left.count_pos
    obtain ⟨hmiddleSound, hl⟩ := ihl hleft (hsecondSound.set _ _) (by omega)
    obtain ⟨hfinalSound, hr⟩ := ihr hright hmiddleSound (by omega)
    refine ⟨hfinalSound, ?_⟩
    intro other hother hne
    rw [hr other (by omega) (by omega), hl other (by omega) (by omega), Table.get?_set_ne hne,
      (hsound.push hfirst).get?_push hsecond, if_neg (by omega), hsound.get?_push hfirst,
      if_neg (by omega)]

/-- Whether a node and all below it are found in a table, and at which places. -/
inductive Occupies (table : Table (Cell N)) : Node N → (place : Nat) → List Nat → Prop
  | leaf {first last place} : table.get? place = some (.leaf first last) →
      Occupies table (.leaf first last) place [place]
  | branch {axis split left right place leftPlace rightPlace leftPlaces rightPlaces} :
      table.get? place = some (.branch axis split leftPlace rightPlace) →
      Occupies table left leftPlace leftPlaces → Occupies table right rightPlace rightPlaces →
      Occupies table (.branch axis split left right) place (place :: (leftPlaces ++ rightPlaces))

theorem Occupies.stands {places : List Nat} (h : node.Occupies table place places) :
    node.Stands table place := by
  induction h with
  | leaf hcell => exact hcell
  | branch hcell _ _ ihl ihr => exact ⟨_, _, hcell, ihl, ihr⟩

/-- The places of two children and of all below them are the new ones of their parent. -/
private theorem places_perm {size middle final : Nat} {left right : List Nat}
    (hmiddle : size + 2 ≤ middle) (hfinal : middle ≤ final)
    (hleft : left.Perm (size :: List.range' (size + 2) (middle - (size + 2))))
    (hright : right.Perm ((size + 1) :: List.range' middle (final - middle))) :
    (left ++ right).Perm (List.range' size (final - size)) := by
  have hlater : List.range' (size + 2) (final - (size + 2)) =
      List.range' (size + 2) (middle - (size + 2)) ++ List.range' middle (final - middle) := by
    have hsum : size + 2 + 1 * (middle - (size + 2)) = middle := by omega
    rw [show final - (size + 2) = (middle - (size + 2)) + (final - middle) by omega,
      ← List.range'_append, hsum]
  rw [show final - size = (final - (size + 2)) + 1 + 1 by omega, List.range'_succ,
    List.range'_succ, hlater]
  exact (hleft.append hright).trans (.cons _ List.perm_middle)

/-- A node that is laid out is found where it was put and at the new places, in every table that
has the same cells there. -/
theorem occupies_of_layOut (h : node.layOut place table = .ok final) (hsound : table.Sound)
    (hplace : place < table.size) (hsame : ∀ other < final.size,
      (other = place ∨ table.size ≤ other) → whole.get? other = final.get? other) :
    ∃ places, node.Occupies whole place places ∧
      places.Perm (place :: List.range' table.size (final.size - table.size)) := by
  induction node generalizing place table final with
  | leaf first last =>
    obtain rfl := Except.ok.inj h
    have hsize : (table.set place (.leaf first last)).size - table.size = 0 := Nat.sub_self _
    refine ⟨[place], .leaf ?_, by rw [hsize]; exact .refl _⟩
    exact (hsame place hplace (.inl rfl)).trans (hsound.get?_set_self hplace _)
  | branch axis split left right ihl ihr =>
    obtain ⟨first, second, middle, hfirst, hsecond, hleft, hright⟩ := layOut_branch_eq_ok.mp h
    have hsize := (Table.size_push hfirst).1
    have hsize' := (Table.size_push hsecond).1
    have hsecondSound := (hsound.push hfirst).push hsecond
    have hset : (second.set place (.branch axis split table.size first.size)).size =
        table.size + 2 := hsize'.trans (congrArg (· + 1) hsize)
    have hmiddle := (size_layOut hleft).1
    have hfinal := (size_layOut hright).1
    have hposl := left.count_pos
    have hposr := right.count_pos
    obtain ⟨hmiddleSound, hl⟩ := layOut_keeps hleft (hsecondSound.set _ _) (by omega)
    obtain ⟨-, hr⟩ := layOut_keeps hright hmiddleSound (by omega)
    obtain ⟨leftPlaces, hleftAt, hleftPerm⟩ := ihl hleft (hsecondSound.set _ _) (by omega) (by
      intro other hother hwhere
      rw [hsame other (by omega) (.inr (by omega)), hr other (by omega) (by omega)])
    obtain ⟨rightPlaces, hrightAt, hrightPerm⟩ := ihr hright hmiddleSound (by omega) (by
      intro other hother hwhere
      exact hsame other hother (.inr (by omega)))
    have hcell : whole.get? place = some (.branch axis split table.size first.size) := by
      rw [hsame place (by omega) (.inl rfl), hr place (by omega) (by omega),
        hl place (by omega) (by omega), hsecondSound.get?_set_self (by omega)]
    rw [hset] at hleftPerm
    rw [hsize] at hrightPerm
    exact ⟨_, .branch hcell hleftAt hrightAt,
      .cons _ (places_perm (by omega) (by omega) hleftPerm hrightPerm)⟩

/-- A node that is laid out stands where it was put, as long as its cells are left alone. -/
theorem stands_of_layOut (h : node.layOut place table = .ok final) (hsound : table.Sound)
    (hplace : place < table.size) (hsame : ∀ other < final.size,
      (other = place ∨ table.size ≤ other) → whole.get? other = final.get? other) :
    node.Stands whole place :=
  have ⟨_, hat, _⟩ := occupies_of_layOut h hsound hplace hsame
  hat.stands

/-- A node is laid out the same way without a cap. -/
theorem layOut_uncapped (h : node.layOut place table = .ok final) :
    node.layOut place { table with cap := none } = .ok { final with cap := none } := by
  induction node generalizing place table final with
  | leaf first last =>
    obtain rfl := Except.ok.inj h
    rfl
  | branch axis split left right ihl ihr =>
    obtain ⟨one, two, half, hone, htwo, hleft, hright⟩ := layOut_branch_eq_ok.mp h
    exact layOut_branch_eq_ok.mpr ⟨_, _, _, Table.push_uncapped hone, Table.push_uncapped htwo,
      ihl hleft, ihr hright⟩

end Node

end Proximity
