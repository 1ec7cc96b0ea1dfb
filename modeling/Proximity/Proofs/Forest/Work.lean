import Mathlib
import Proximity.Forest.Work
import Proximity.Proofs.Forest.Counting

/-!
# How much is rebuilt

An insertion that succeeds hands over the points alive in the slots that the carry runs through, and
the new one: no more than the digit stands for that the carry stops at. Over a row of insertions
these digits add up to a logarithm for each. And every point that is rebuilt moves up.
-/

namespace Proximity

variable {N D : Type}

section Carrying

/-- An even counter is added to without a carry. -/
theorem carry_even (digits n : Nat) : carry (digits + 1) (2 * n) = 0 :=
  if_neg (by omega)

/-- An odd counter carries on into the digits above its lowest one. -/
theorem carry_odd (digits n : Nat) : carry (digits + 1) (2 * n + 1) = carry digits n + 1 := by
  rw [carry, if_pos (by omega), show (2 * n + 1) / 2 = n by omega]

/-- Every second carry stops at once, and the others go as those of half the number do. -/
theorem sum_two_pow_carry_succ (digits count : Nat) :
    ∑ n ∈ Finset.range count, 2 ^ carry (digits + 1) n =
      (count + 1) / 2 + 2 * ∑ n ∈ Finset.range (count / 2), 2 ^ carry digits n := by
  induction count with
  | zero => rfl
  | succ count ih =>
    rw [Finset.sum_range_succ, ih]
    obtain ⟨half, rfl | rfl⟩ := Nat.even_or_odd' count
    · rw [carry_even, show (2 * half + 1) / 2 = half by omega, show 2 * half / 2 = half by omega]
      omega
    · rw [carry_odd, show (2 * half + 1) / 2 = half by omega,
        show (2 * half + 1 + 1) / 2 = half + 1 by omega, Finset.sum_range_succ, pow_succ]
      omega

/-- The digits that carries stop at add up to a logarithm for each. -/
theorem sum_two_pow_carry_le (digits count : Nat) :
    ∑ n ∈ Finset.range count, 2 ^ carry digits n ≤ count * (Nat.log 2 count + 1) := by
  induction digits generalizing count with
  | zero => simp [carry, Nat.mul_add]
  | succ digits ih =>
    rw [sum_two_pow_carry_succ]
    rcases Nat.lt_or_ge count 2 with hsmall | hlarge
    · interval_cases count <;> simp
    · have hhalf := ih (count / 2)
      have hlog : Nat.log 2 (count / 2) + 1 = Nat.log 2 count := by
        rw [Nat.log_div_base, Nat.sub_add_cancel (Nat.log_pos Nat.one_lt_two hlarge)]
      rw [hlog] at hhalf
      calc (count + 1) / 2 + 2 * ∑ n ∈ Finset.range (count / 2), 2 ^ carry digits n
        _ ≤ (count + 1) / 2 + 2 * (count / 2 * Nat.log 2 count) := by omega
        _ = (count + 1) / 2 + 2 * (count / 2) * Nat.log 2 count := by rw [Nat.mul_assoc]
        _ ≤ count + count * Nat.log 2 count := by
          gcongr
          · omega
          · omega
        _ = count * (Nat.log 2 count + 1) := by rw [Nat.mul_succ, Nat.add_comm]

end Carrying

namespace Forest

variable [Coordinate N]

/-- Noting what a build is handed changes neither its tree nor its failures. -/
theorem run_buildNoting (source : Source N) (options : BuildOptions) (points noted : List Nat) :
    (Tree.buildNoting source options points).run noted =
      (Tree.build source options points none).map fun tree => (tree, noted ++ points) := by
  show (do let tree ← Tree.build source options points none; return (tree, noted ++ points)) = _
  cases Tree.build source options points none <;> rfl

/-- An insertion that notes its points is the insertion, and they are noted if it succeeds. -/
theorem run_insertNoting (forest : Forest N D) (source : Source N) (index : Nat)
    (noted : List Nat) : (forest.insertNoting source index).run noted =
      (forest.insert source index).map fun final => (final, noted ++ forest.merged index) := by
  unfold insertNoting insert
  cases forest.requireInsertable source index with
  | error cause => rfl
  | ok _ =>
  show (Tree.buildNoting source forest.options (forest.merged index) >>= fun tree =>
    pure (forest.settle (carry 64 forest.counter) tree)).run noted = Except.map _
      (Tree.build source forest.options (forest.merged index) none >>= _)
  rw [StateT.run_bind, run_buildNoting]
  cases Tree.build source forest.options (forest.merged index) none <;> rfl

/-- A tally with the points that its insertions handed over to be built into trees. -/
structure Ledger (N D : Type) where
  tally : Tally N D
  /-- The points that the insertions that succeeded handed over, those of the first one first. -/
  handed : List Nat

/-- The ledger after a change. What an insertion that fails handed over is not kept. -/
def Ledger.change (ledger : Ledger N D) (change : Change N) : Ledger N D where
  tally := ledger.tally.change change
  handed :=
    match change with
    | .insert source index =>
      match (ledger.tally.forest.insertNoting source index).run ledger.handed with
      | .ok (_, handed) => handed
      | .error _ => ledger.handed
    | .remove _ => ledger.handed

/-- The ledger of some changes. -/
def ledger (forest : Forest N D) (changes : List (Change N)) : Ledger N D :=
  changes.foldl Ledger.change ⟨⟨forest, 0, 0⟩, []⟩

/-- A ledger is kept along with the tally. -/
theorem tally_ledger (forest : Forest N D) (changes : List (Change N)) :
    (forest.ledger changes).tally = forest.tally changes := by
  have hfold (ledger : Ledger N D) :
      (changes.foldl Ledger.change ledger).tally = changes.foldl Tally.change ledger.tally := by
    induction changes generalizing ledger with
    | nil => rfl
    | cons change changes ih => exact ih (ledger.change change)
  exact hfold _

section Changing

variable {ledger : Ledger N D} {source : Source N} {index : Nat}

/-- An insertion that succeeds is entered with all points it hands over. -/
theorem Ledger.change_of_ok {final : Forest N D}
    (h : ledger.tally.forest.insert source index = .ok final) :
    ledger.change (.insert source index) =
      ⟨⟨final, ledger.tally.inserted + 1, ledger.tally.removed⟩,
        ledger.handed ++ ledger.tally.forest.merged index⟩ := by
  have hrun := run_insertNoting ledger.tally.forest source index ledger.handed
  rw [h] at hrun
  simp only [change, Tally.change, h, hrun, Except.map]

/-- An insertion that fails is not entered. -/
theorem Ledger.change_of_error {cause : Error}
    (h : ledger.tally.forest.insert source index = .error cause) :
    ledger.change (.insert source index) = ledger := by
  have hrun := run_insertNoting ledger.tally.forest source index ledger.handed
  rw [h] at hrun
  simp only [change, Tally.change, h, hrun, Except.map]

/-- A removal counts no insertion and takes back no removal. -/
theorem Tally.change_remove (tally : Tally N D) (index : Nat) :
    (tally.change (.remove index)).inserted = tally.inserted ∧
      tally.removed ≤ (tally.change (.remove index)).removed := by
  rcases hremove : tally.forest.remove index with ⟨forest, found⟩
  simp only [Tally.change, hremove]
  cases found
  · exact ⟨rfl, le_rfl⟩
  · exact ⟨rfl, Nat.le_succ _⟩

end Changing

namespace Tally.Digits

variable {tally : Tally N D}

omit [Coordinate N] in
/-- An insertion hands over no more points than its digit stands for. -/
theorem length_merged_le (h : tally.Digits) (index : Nat) :
    (tally.forest.merged index).length ≤ 2 ^ carry 64 tally.forest.counter := by
  have hbelow := h.sound.length_pointsBelow (carry 64 tally.forest.counter)
  have hheld := sum_held_lt h.held_le (carry 64 tally.forest.counter)
  rw [length_merged]
  omega

omit [Coordinate N] in
/-- As long as nothing was removed, it hands over as many. -/
theorem length_merged_eq (h : tally.Digits) (hnone : tally.removed = 0) (index : Nat) :
    (tally.forest.merged index).length = 2 ^ carry 64 tally.forest.counter := by
  have hbelow := h.sound.length_pointsBelow (carry 64 tally.forest.counter)
  have hgone : ∑ lower ∈ Finset.range (carry 64 tally.forest.counter),
      tally.forest.gone lower = 0 :=
    Finset.sum_eq_zero fun lower _ => (h.intact hnone lower).1
  have hheld := sum_held_eq fun lower hlower =>
    (h.intact hnone lower).2 (h.isSome_of_lt_carry hlower)
  rw [length_merged]
  omega

end Tally.Digits

/-- Whether no more points were handed over than the digits stand for that carries stopped at. -/
structure Ledger.Bounded (ledger : Ledger N D) : Prop where
  digits : ledger.tally.Digits
  length_le : ledger.handed.length ≤
    ∑ count ∈ Finset.range ledger.tally.inserted, 2 ^ carry 64 count
  intact : ledger.tally.removed = 0 → ledger.handed.length =
    ∑ count ∈ Finset.range ledger.tally.inserted, 2 ^ carry 64 count

namespace Ledger.Bounded

variable [LawfulCoordinate N] {ledger : Ledger N D}

/-- Every change keeps the bound: an insertion that succeeds adds the next digit. -/
theorem change (h : ledger.Bounded) (change : Change N) : (ledger.change change).Bounded := by
  have hdigits : (ledger.change change).tally.Digits := h.digits.change change
  cases change with
  | insert source index =>
    cases hinsert : ledger.tally.forest.insert source index with
    | error cause => rwa [Ledger.change_of_error hinsert]
    | ok final =>
      rw [Ledger.change_of_ok hinsert] at hdigits ⊢
      refine ⟨hdigits, ?_, fun hnone => ?_⟩
      · have hmerged := h.digits.length_merged_le index
        have hlength := h.length_le
        rw [h.digits.counter_eq] at hmerged
        dsimp only
        rw [List.length_append, Finset.sum_range_succ]
        omega
      · have hmerged := h.digits.length_merged_eq hnone index
        have hlength := h.intact hnone
        rw [h.digits.counter_eq] at hmerged
        dsimp only
        rw [List.length_append, Finset.sum_range_succ, hlength, hmerged]
  | remove index =>
    obtain ⟨hinserted, hremoved⟩ := ledger.tally.change_remove index
    refine ⟨hdigits, ?_, fun hnone => ?_⟩
    · show ledger.handed.length ≤ ∑ count ∈ Finset.range (ledger.tally.change _).inserted, _
      rw [hinserted]
      exact h.length_le
    · show ledger.handed.length = ∑ count ∈ Finset.range (ledger.tally.change _).inserted, _
      rw [hinserted]
      exact h.intact (Nat.eq_zero_of_le_zero (hremoved.trans_eq hnone))

/-- Any changes keep the bound. -/
theorem foldl (h : ledger.Bounded) (changes : List (Change N)) :
    (changes.foldl Ledger.change ledger).Bounded := by
  induction changes generalizing ledger with
  | nil => exact h
  | cons change changes ih => exact ih (h.change change)

end Ledger.Bounded

section Moving

variable [LawfulCoordinate N] {forest : Forest N D} {source : Source N} {index : Nat}
  {tree : Tree N}

/-- An insertion builds its tree over the points that it hands over. -/
theorem Inserted.mem_order_iff (h : forest.Inserted source index tree) {point : Nat} :
    point ∈ tree.order.toList ↔ point ∈ forest.merged index := h.perm.mem_iff

/-- A point that was alive and is handed over moves to a higher slot, the one that is settled. -/
theorem Inserted.moves (h : forest.Inserted source index tree) (hsound : forest.Sound)
    {point : Nat} (hpoint : point ∈ forest.merged index) (hne : point ≠ index) :
    ∃ before after, forest.directory.slot? point = some before ∧
      (forest.settle (carry 64 forest.counter) tree).directory.slot? point = some after ∧
      before < after := by
  have hslot : (forest.settle (carry 64 forest.counter) tree).directory.slot? point =
      some (carry 64 forest.counter) := by
    show (forest.directory.putAll _ tree.order.toList).slot? point = _
    rw [Directory.slot?_putAll, if_pos (h.mem_order_iff.mpr hpoint)]
  obtain ⟨before, hbefore, hhouse⟩ := (mem_merged.mp hpoint).resolve_left hne
  exact ⟨before, _, (hsound.home point before).mpr hhouse, hslot, hbefore⟩

/-- All others stay where they are. -/
theorem Inserted.stays (h : forest.Inserted source index tree) {point : Nat}
    (hpoint : point ∉ forest.merged index) :
    (forest.settle (carry 64 forest.counter) tree).directory.slot? point =
      forest.directory.slot? point := by
  show (forest.directory.putAll _ tree.order.toList).slot? point = _
  rw [Directory.slot?_putAll, if_neg fun hin => hpoint (h.mem_order_iff.mp hin)]

end Moving

/-- However a forest was changed since it was begun, its insertions handed over a logarithm of
points each to be built into trees, or fewer; as long as nothing was removed, as many as the digits
stand for that their carries stopped at. The next insertion to succeed hands over some points alive
and its own, builds one tree over them, moves each of them that was alive to a higher slot, and
leaves all others where they are. -/
theorem rebuilding_logarithmic [LawfulCoordinate N] {dims : Nat} {options : BuildOptions}
    {metric : Metric N D} {forest : Forest N D} {changes : List (Change N)} {ledger : Ledger N D}
    (hempty : empty dims options metric = .ok forest)
    (hledger : forest.ledger changes = ledger) :
    ledger.tally = forest.tally changes ∧
    ledger.handed.length ≤ ledger.tally.inserted * (Nat.log 2 ledger.tally.inserted + 1) ∧
    (ledger.tally.removed = 0 → ledger.handed.length =
      ∑ count ∈ Finset.range ledger.tally.inserted, 2 ^ carry 64 count) ∧
    ∀ source index final, ledger.tally.forest.insert source index = .ok final →
      ledger.tally.forest.contains index = false ∧
      ∃ points tree, points.Nodup ∧ index ∈ points ∧
        Tree.build source ledger.tally.forest.options points none = .ok tree ∧
        (ledger.tally.forest.insertNoting source index).run ledger.handed =
          .ok (final, ledger.handed ++ points) ∧
        (∀ point ∈ points, point ≠ index → ∃ before after,
          ledger.tally.forest.directory.slot? point = some before ∧
            final.directory.slot? point = some after ∧ before < after) ∧
        ∀ point, point ∉ points →
          final.directory.slot? point = ledger.tally.forest.directory.slot? point := by
  have hbegun : (⟨⟨forest, 0, 0⟩, []⟩ : Ledger N D).Bounded :=
    ⟨.empty hempty, Nat.zero_le _, fun _ => rfl⟩
  have h : ledger.Bounded := hledger ▸ hbegun.foldl changes
  refine ⟨hledger ▸ tally_ledger forest changes,
    h.length_le.trans (sum_two_pow_carry_le 64 _), h.intact, ?_⟩
  intro source index final hinsert
  have hrun := run_insertNoting ledger.tally.forest source index ledger.handed
  rw [hinsert] at hrun
  obtain ⟨tree, hinserted, rfl⟩ := insert_eq_ok hinsert
  have hsound := h.digits.sound
  have hnodup := hinserted.perm.nodup_iff.mp (hinserted.order_nodup hsound)
  exact ⟨hinserted.absent, ledger.tally.forest.merged index, tree, hnodup,
    List.mem_append_right _ (List.mem_singleton_self index), hinserted.build, hrun,
    fun _ hpoint hne => hinserted.moves hsound hpoint hne, fun _ hpoint => hinserted.stays hpoint⟩

end Forest

/-- Three insertions with two removals in between handed over four points, where the bound is six.
The next one hands over one point that was alive, which moves up, and its own. -/
theorem rebuilding_logarithmic_bytes :
    Forest.empty 1 ⟨2, none⟩ .squaredEuclidean = .ok byteBegun ∧
    ∃ ledger final, byteBegun.ledger byteChanges = ledger ∧ ledger.tally.inserted = 3 ∧
      ledger.handed = [0, 0, 1, 0] ∧
      ledger.handed.length ≤ ledger.tally.inserted * (Nat.log 2 ledger.tally.inserted + 1) ∧
      ledger.tally.forest.insert byteSource 2 = .ok final ∧
      (ledger.tally.forest.insertNoting byteSource 2).run [0, 0, 1, 0] =
        .ok (final, [0, 0, 1, 0] ++ [0, 2]) ∧
      ∃ before after, ledger.tally.forest.directory.slot? 0 = some before ∧
        final.directory.slot? 0 = some after ∧ before < after := by
  have hempty : Forest.empty 1 ⟨2, none⟩ .squaredEuclidean = .ok byteBegun := rfl
  obtain ⟨final, hinsert⟩ : ∃ final,
      (byteBegun.ledger byteChanges).tally.forest.insert byteSource 2 = .ok final := ⟨_, rfl⟩
  obtain ⟨-, hbound, -, hmoves⟩ :=
    Forest.rebuilding_logarithmic hempty (show byteBegun.ledger byteChanges = _ from rfl)
  obtain ⟨-, points, tree, -, -, -, hrun, hup, -⟩ := hmoves _ _ _ hinsert
  have hpoints : [0, 2] = points :=
    List.append_cancel_left (Prod.mk.inj (Except.ok.inj (rfl.symm.trans hrun))).2
  subst hpoints
  exact ⟨hempty, _, final, rfl, rfl, rfl, hbound, hinsert, hrun, hup 0 (by decide) (by decide)⟩

end Proximity
