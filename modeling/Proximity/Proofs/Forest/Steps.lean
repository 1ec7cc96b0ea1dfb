import Mathlib
import Proximity.Proofs.Forest.Invariant

/-!
# Inserting, removing and reading

An insertion that succeeds settles a tree over the new point and the points of all lower slots in
a slot that was empty. What each step does to the set of points is one equivalence, and each step
keeps the invariant, so it holds of every forest that can be reached.
-/

namespace Proximity

namespace Forest

variable {N D : Type}

section Settling

variable {forest : Forest N D} {slot : Nat} {tree : Tree N}

/-- After settling, the slots below are empty and those above are as they were. -/
theorem plot?_settle (forest : Forest N D) (slot other : Nat) (tree : Tree N) :
    (forest.settle slot tree).plot? other =
      if other < slot then none
      else if other = slot then some (.ofTree tree)
      else forest.plot? other := by
  show ((List.replicate slot none ++ some (Plot.ofTree tree) ::
    forest.slots.drop (slot + 1))[other]?).join = _
  rw [List.getElem?_append, List.length_replicate]
  by_cases hlt : other < slot
  · rw [if_pos hlt, if_pos hlt, List.getElem?_replicate, if_pos hlt]
    rfl
  rw [if_neg hlt, if_neg hlt]
  by_cases heq : other = slot
  · rw [if_pos heq, heq, Nat.sub_self]
    rfl
  · have hsplit : other - slot = other - (slot + 1) + 1 := by omega
    have hback : slot + 1 + (other - (slot + 1)) = other := by omega
    rw [if_neg heq, hsplit, List.getElem?_cons_succ, List.getElem?_drop, hback]
    rfl

/-- What is said of each slot says of a settled forest: nothing below, the tree, and above what it
said. -/
theorem elim_plot?_settle {β : Type} (forest : Forest N D) (slot other : Nat) (tree : Tree N)
    (default : β) (f : Plot N → β) :
    ((forest.settle slot tree).plot? other).elim default f =
      if other < slot then default
      else if other = slot then f (.ofTree tree)
      else (forest.plot? other).elim default f := by
  rw [plot?_settle, apply_ite (Option.elim · default f), apply_ite (Option.elim · default f)]
  rfl

/-- A point is at home in the settled slot if its tree holds it, and otherwise where it was above
that slot. -/
theorem houses_settle {other index : Nat} :
    (forest.settle slot tree).Houses other index ↔
      (other = slot ∧ index ∈ tree.order) ∨ slot < other ∧ forest.Houses other index := by
  rw [Houses, plot?_settle]
  rcases Nat.lt_trichotomy other slot with hlt | heq | hgt
  · rw [if_pos hlt]
    constructor
    · rintro ⟨plot, hplot, -⟩
      nomatch hplot
    · rintro (⟨rfl, -⟩ | ⟨hgt, -⟩) <;> omega
  · rw [if_neg (by omega), if_pos heq]
    constructor
    · rintro ⟨plot, hplot, hindex⟩
      obtain rfl := Option.some.inj hplot
      rw [Plot.livePoints_ofTree, Array.mem_toList_iff] at hindex
      exact .inl ⟨heq, hindex⟩
    · rintro (⟨-, hindex⟩ | ⟨hgt, -⟩)
      · refine ⟨_, rfl, ?_⟩
        rwa [Plot.livePoints_ofTree, Array.mem_toList_iff]
      · omega
  · rw [if_neg (by omega), if_neg (by omega)]
    constructor
    · intro h
      exact .inr ⟨hgt, h⟩
    · rintro (⟨rfl, -⟩ | ⟨-, h⟩)
      · omega
      · exact h

/-- Settling adds slots up to the one that is settled. -/
theorem length_settle (forest : Forest N D) (slot : Nat) (tree : Tree N) :
    (forest.settle slot tree).slots.length = max (slot + 1) forest.slots.length := by
  show (List.replicate _ none ++ some (Plot.ofTree tree) :: forest.slots.drop _).length = _
  simp only [List.length_append, List.length_replicate, List.length_cons, List.length_drop]
  omega

/-- After settling the points of the tree are alive and those of the slots above it. -/
theorem live_settle :
    (forest.settle slot tree).live = tree.order.toList ++ forest.pointsAbove slot := by
  have hnone : (List.replicate slot (none : Option (Plot N))).flatMap
      (fun plot => plot.elim [] Plot.livePoints) = [] := by
    rw [List.flatMap_eq_nil_iff]
    intro plot hplot
    rw [List.eq_of_mem_replicate hplot]
    rfl
  show (List.replicate slot none ++ some (Plot.ofTree tree) ::
    forest.slots.drop (slot + 1)).flatMap _ = _
  rw [List.flatMap_append, hnone, List.nil_append, List.flatMap_cons, pointsAbove]
  congr 1
  exact Plot.livePoints_ofTree tree

end Settling

namespace Sound

variable {forest : Forest N D}

/-- No point is alive in two slots. -/
theorem pointsBelow_nodup (h : forest.Sound) (slot : Nat) : (forest.pointsBelow slot).Nodup := by
  have hlive := h.live_nodup
  rw [live_eq forest slot] at hlive
  exact hlive.of_append_left

/-- The slot that the next insertion settles in is empty. -/
theorem plot?_carry (h : forest.Sound) (hroom : forest.counter < maxWord64) :
    forest.plot? (carry 64 forest.counter) = none := by
  have hdigits : forest.counter + 1 < 2 ^ 64 := by
    rw [maxWord64] at hroom
    omega
  cases hplot : forest.plot? (carry 64 forest.counter) with
  | none => rfl
  | some plot =>
    have hset := h.counted _ _ hplot
    rw [(carry_spec hdigits).1] at hset
    nomatch hset

end Sound

/-- Whether nothing bars a point of a source from being inserted. -/
structure Insertable (forest : Forest N D) (source : Source N) (index : Nat) : Prop where
  dims_eq : source.dims = forest.dims
  lt_size : index < source.size
  le_word : index ≤ maxWord32
  absent : forest.contains index = false
  counter_lt : forest.counter < maxWord64

/-- A source is let in exactly if it has the dimensions of the forest. -/
theorem requireSource_eq_ok {forest : Forest N D} {source : Source N} {u : Unit} :
    forest.requireSource source = .ok u ↔ source.dims = forest.dims := by
  unfold requireSource
  split
  · next haxes => exact ⟨fun h => (nomatch h), fun h => absurd h haxes⟩
  · next haxes => exact ⟨fun _ => not_not.mp haxes, fun _ => rfl⟩

/-- The check of an insertion lets through what nothing bars. -/
theorem requireInsertable_eq_ok {forest : Forest N D} {source : Source N} {index : Nat}
    {u : Unit} : forest.requireInsertable source index = .ok u ↔
      forest.Insertable source index := by
  have hlast : (if maxWord64 ≤ forest.counter then (throw .insertionsExhausted : Except Error Unit)
      else pure ()) = .ok u ↔ forest.counter < maxWord64 := by
    split
    · next hfull => exact ⟨fun h => (nomatch h), fun h => absurd hfull (Nat.not_le.mpr h)⟩
    · next hroom => exact ⟨fun _ => Nat.lt_of_not_le hroom, fun _ => rfl⟩
  unfold requireInsertable
  rw [Outcome.bind_eq_ok]
  constructor
  · rintro ⟨_, hsource, h⟩
    obtain ⟨hrange, h⟩ := Outcome.guard_eq_ok.mp h
    obtain ⟨hpresent, h⟩ := Outcome.guard_eq_ok.mp h
    rw [not_or, Nat.not_le, Nat.not_lt] at hrange
    exact ⟨requireSource_eq_ok.mp hsource, hrange.1, hrange.2, Bool.eq_false_iff.mpr hpresent,
      hlast.mp h⟩
  · rintro ⟨hdims, hlt, hword, habsent, hroom⟩
    refine ⟨(), requireSource_eq_ok.mpr hdims, Outcome.guard_eq_ok.mpr ⟨?_, ?_⟩⟩
    · rw [not_or, Nat.not_le, Nat.not_lt]
      exact ⟨hlt, hword⟩
    · exact Outcome.guard_eq_ok.mpr ⟨Bool.eq_false_iff.mp habsent, hlast.mpr hroom⟩

/-- What is known of an insertion that succeeded. -/
structure Inserted [Coordinate N] (forest : Forest N D) (source : Source N) (index : Nat)
    (tree : Tree N) : Prop extends forest.Insertable source index where
  build : Tree.build source forest.options (forest.merged index) none = .ok tree

variable [Coordinate N]

/-- An insertion that succeeds settles a tree over the new point and those of the lower slots. -/
theorem insert_eq_ok {forest final : Forest N D} {source : Source N} {index : Nat}
    (h : forest.insert source index = .ok final) :
    ∃ tree, forest.Inserted source index tree ∧
      final = forest.settle (carry 64 forest.counter) tree := by
  obtain ⟨_, hrequire, h⟩ := Outcome.bind_eq_ok.mp h
  obtain ⟨tree, hbuild, h⟩ := Outcome.bind_eq_ok.mp h
  obtain rfl := Except.ok.inj h
  exact ⟨tree, ⟨requireInsertable_eq_ok.mp hrequire, hbuild⟩, rfl⟩

namespace Inserted

variable {forest : Forest N D} {source : Source N} {index : Nat} {tree : Tree N}

/-- What is known of an insertion that succeeded is enough for it to succeed. -/
theorem insert_eq (h : forest.Inserted source index tree) :
    forest.insert source index = .ok (forest.settle (carry 64 forest.counter) tree) := by
  have hrequire : forest.requireInsertable source index = .ok () :=
    requireInsertable_eq_ok.mpr h.toInsertable
  rw [insert, hrequire, Outcome.ok_bind, h.build]
  rfl

/-- A point about to be inserted is in no slot. -/
private theorem homeless (h : forest.Inserted source index tree) (hsound : forest.Sound)
    (slot : Nat) : ¬ forest.Houses slot index := by
  intro hhouse
  have hin := (hsound.contains_iff index).mpr ⟨slot, hhouse⟩
  rw [h.absent] at hin
  nomatch hin

variable [LawfulCoordinate N]

/-- The tree of an insertion arranges the points that it merges. -/
theorem perm (h : forest.Inserted source index tree) :
    tree.order.toList.Perm (forest.merged index) :=
  (Tree.build_eq_ok h.build).order_perm

/-- The tree of an insertion holds the new point and those of the lower slots. -/
theorem mem_order (h : forest.Inserted source index tree) {other : Nat} :
    other ∈ tree.order ↔ other = index ∨
      ∃ lower < carry 64 forest.counter, forest.Houses lower other := by
  rw [← Array.mem_toList_iff, h.perm.mem_iff, mem_merged]

/-- No point is merged twice. -/
theorem order_nodup (h : forest.Inserted source index tree) (hsound : forest.Sound) :
    tree.order.toList.Nodup := by
  rw [h.perm.nodup_iff, merged, List.nodup_append]
  refine ⟨hsound.pointsBelow_nodup _, List.nodup_singleton _, ?_⟩
  rintro other hother last hlast rfl
  obtain ⟨lower, -, hhouse⟩ := mem_pointsBelow.mp hother
  exact h.homeless hsound lower (List.mem_singleton.mp hlast ▸ hhouse)

/-- A point is at home above the slot that is settled, or the new tree takes it in. -/
theorem houses_cases (h : forest.Inserted source index tree) (hsound : forest.Sound)
    {slot other : Nat} (hhouse : forest.Houses slot other) :
    (carry 64 forest.counter < slot ∧ other ∉ tree.order) ∨
      slot < carry 64 forest.counter ∧ other ∈ tree.order := by
  rcases Nat.lt_trichotomy slot (carry 64 forest.counter) with hlt | rfl | hgt
  · exact .inr ⟨hlt, h.mem_order.mpr (.inr ⟨slot, hlt, hhouse⟩)⟩
  · obtain ⟨plot, hplot, -⟩ := hhouse
    rw [hsound.plot?_carry h.counter_lt] at hplot
    nomatch hplot
  · refine .inl ⟨hgt, ?_⟩
    intro hin
    rcases h.mem_order.mp hin with rfl | ⟨lower, hlower, hhouse'⟩
    · exact h.homeless hsound slot hhouse
    · have := hsound.houses_unique hhouse hhouse'
      omega

/-- Settling the tree of an insertion keeps a forest sound. -/
theorem sound (h : forest.Inserted source index tree) (hsound : forest.Sound) :
    (forest.settle (carry 64 forest.counter) tree).Sound := by
  have hdigits : forest.counter + 1 < 2 ^ 64 := by
    have hroom := h.counter_lt
    rw [maxWord64] at hroom
    omega
  constructor
  case plot =>
    intro other plot hplot
    rw [plot?_settle] at hplot
    split at hplot
    · nomatch hplot
    split at hplot
    · obtain rfl := Option.some.inj hplot
      exact Plot.sound_ofTree (h.order_nodup hsound)
    · exact hsound.plot other plot hplot
  case counted =>
    intro other plot hplot
    show (forest.counter + 1).testBit other = true
    rw [plot?_settle] at hplot
    rw [(carry_spec hdigits).2]
    split at hplot
    · nomatch hplot
    next hge =>
    rw [if_neg hge]
    split at hplot
    · next heq => rw [if_pos heq]
    · next hne =>
      rw [if_neg hne]
      exact hsound.counted other plot hplot
  case home =>
    intro other slot
    rw [houses_settle, ← Array.mem_toList_iff]
    show (forest.directory.putAll _ tree.order.toList).slot? other = some slot ↔ _
    rw [Directory.slot?_putAll]
    by_cases hin : other ∈ tree.order.toList
    · rw [if_pos hin, Option.some_inj]
      constructor
      · rintro rfl
        exact .inl ⟨rfl, hin⟩
      · rintro (⟨rfl, -⟩ | ⟨habove, hhouse⟩)
        · rfl
        · rcases h.houses_cases hsound hhouse with ⟨-, hout⟩ | ⟨hlt, -⟩
          · exact absurd (Array.mem_toList_iff.mp hin) hout
          · omega
    · rw [if_neg hin, hsound.home]
      constructor
      · intro hhouse
        rcases h.houses_cases hsound hhouse with ⟨hgt, -⟩ | ⟨-, hin'⟩
        · exact .inr ⟨hgt, hhouse⟩
        · exact absurd (Array.mem_toList_iff.mpr hin') hin
      · rintro (⟨-, hin'⟩ | ⟨-, hhouse⟩)
        · exact absurd hin' hin
        · exact hhouse
  case size_eq =>
    have hlength := h.perm.length_eq
    have hsize := hsound.size_eq
    rw [live_eq _ (carry 64 forest.counter), hsound.plot?_carry h.counter_lt] at hsize
    simp only [Option.elim_none, List.nil_append, List.length_append] at hsize
    rw [length_merged] at hlength
    show forest.size + 1 = _
    rw [live_settle, List.length_append]
    omega
  case counter_le => exact h.counter_lt

/-- An insertion adds its point and keeps all others. -/
theorem contains_settle (h : forest.Inserted source index tree) (hsound : forest.Sound)
    (other : Nat) :
    (forest.settle (carry 64 forest.counter) tree).contains other = true ↔
      other = index ∨ forest.contains other = true := by
  rw [(h.sound hsound).contains_iff, hsound.contains_iff]
  simp only [houses_settle]
  constructor
  · rintro ⟨slot, ⟨rfl, hin⟩ | ⟨-, hhouse⟩⟩
    · rcases h.mem_order.mp hin with heq | ⟨lower, -, hhouse⟩
      · exact .inl heq
      · exact .inr ⟨lower, hhouse⟩
    · exact .inr ⟨slot, hhouse⟩
  · rintro (rfl | ⟨slot, hhouse⟩)
    · exact ⟨_, .inl ⟨rfl, h.mem_order.mpr (.inl rfl)⟩⟩
    · rcases h.houses_cases hsound hhouse with ⟨hgt, -⟩ | ⟨-, hin⟩
      · exact ⟨slot, .inr ⟨hgt, hhouse⟩⟩
      · exact ⟨_, .inl ⟨rfl, hin⟩⟩

end Inserted

/-- A successful insertion keeps a forest sound. -/
theorem Sound.insert [LawfulCoordinate N] {forest final : Forest N D} (h : forest.Sound)
    {source : Source N} {index : Nat} (hinsert : forest.insert source index = .ok final) :
    final.Sound := by
  obtain ⟨tree, hinserted, rfl⟩ := insert_eq_ok hinsert
  exact hinserted.sound h

section Striking

omit [Coordinate N]

/-- The forest with a point noted as removed beside the tree of a slot. -/
def strike (forest : Forest N D) (slot : Nat) (plot : Plot N) (index : Nat) : Forest N D :=
  { forest with
    slots := forest.slots.set slot (some (plot.remove index))
    directory := forest.directory.erase index
    size := forest.size - 1 }

variable {forest : Forest N D} {slot : Nat} {plot : Plot N} {index : Nat}

/-- Striking a point out changes the plot it is in and no other. -/
theorem plot?_strike (hplot : forest.plot? slot = some plot) (index other : Nat) :
    (forest.strike slot plot index).plot? other =
      if other = slot then some (plot.remove index) else forest.plot? other := by
  show ((forest.slots.set slot (some (plot.remove index)))[other]?).join = _
  by_cases heq : other = slot
  · have hlt := (List.getElem?_eq_some_iff.mp (plot?_eq_some.mp hplot)).1
    rw [if_pos heq, heq, List.getElem?_set_self hlt]
    rfl
  · rw [if_neg heq, List.getElem?_set_ne (Ne.symm heq)]
    rfl

/-- Striking a point where it is at home leaves all others at home where they are. -/
theorem houses_strike (h : forest.Sound) (hplot : forest.plot? slot = some plot)
    (hlive : index ∈ plot.livePoints) {other point : Nat} :
    (forest.strike slot plot index).Houses other point ↔
      point ≠ index ∧ forest.Houses other point := by
  rw [Houses, plot?_strike hplot]
  by_cases heq : other = slot
  · subst heq
    rw [if_pos rfl]
    constructor
    · rintro ⟨struck, hstruck, hpoint⟩
      obtain rfl := Option.some.inj hstruck
      obtain ⟨hne, hpoint⟩ := Plot.mem_livePoints_remove.mp hpoint
      exact ⟨hne, plot, hplot, hpoint⟩
    · rintro ⟨hne, found, hfound, hpoint⟩
      obtain rfl := Option.some.inj (hplot.symm.trans hfound)
      exact ⟨_, rfl, Plot.mem_livePoints_remove.mpr ⟨hne, hpoint⟩⟩
  · rw [if_neg heq]
    constructor
    · intro hhouse
      refine ⟨?_, hhouse⟩
      rintro rfl
      exact heq (h.houses_unique hhouse ⟨plot, hplot, hlive⟩)
    · exact And.right

/-- Striking out a point that is alive keeps a forest sound. -/
theorem Sound.strike (h : forest.Sound) (hplot : forest.plot? slot = some plot)
    (hlive : index ∈ plot.livePoints) : (forest.strike slot plot index).Sound := by
  constructor
  case plot =>
    intro other found hfound
    rw [plot?_strike hplot] at hfound
    split at hfound
    · obtain rfl := Option.some.inj hfound
      exact (h.plot slot plot hplot).remove hlive
    · exact h.plot other found hfound
  case counted =>
    intro other found hfound
    rw [plot?_strike hplot] at hfound
    split at hfound
    · next heq =>
      rw [heq]
      exact h.counted slot plot hplot
    · exact h.counted other found hfound
  case home =>
    intro point other
    rw [houses_strike h hplot hlive, ← h.home]
    show (forest.directory.erase index).slot? point = some other ↔ _
    rw [Directory.slot?_erase]
    by_cases heq : point = index
    · rw [if_pos heq]
      exact ⟨fun hnone => (nomatch hnone), fun hne => absurd heq hne.1⟩
    · rw [if_neg heq]
      exact ⟨fun hsome => ⟨heq, hsome⟩, And.right⟩
  case size_eq =>
    have hbelow : (forest.strike slot plot index).pointsBelow slot = forest.pointsBelow slot := by
      show (List.take slot (forest.slots.set slot _)).flatMap _ = _
      rw [List.take_set_of_le (Nat.le_refl slot)]
      rfl
    have habove : (forest.strike slot plot index).pointsAbove slot = forest.pointsAbove slot := by
      show (List.drop (slot + 1) (forest.slots.set slot _)).flatMap _ = _
      rw [List.drop_set_of_lt (Nat.lt_succ_self slot)]
      rfl
    have hremoved : (plot.remove index).removed.length = plot.removed.length + 1 :=
      List.length_insert_of_not_mem (Plot.mem_livePoints.mp hlive).2
    have hbefore := (h.plot slot plot hplot).length_livePoints
    have hafter := ((h.plot slot plot hplot).remove hlive).length_livePoints
    have htree : (plot.remove index).tree.size = plot.tree.size := rfl
    have hsize := h.size_eq
    show forest.size - 1 = _
    rw [live_eq _ slot, hplot] at hsize
    rw [live_eq _ slot, hbelow, habove, plot?_strike hplot, if_pos rfl]
    simp only [Option.elim_some, List.length_append] at hsize ⊢
    omega
  case counter_le => exact h.counter_le

/-- A removal strikes its point where it is at home, or changes nothing if it is nowhere. -/
theorem Sound.remove_cases (h : forest.Sound) (index : Nat) :
    (forest.contains index = false ∧ forest.remove index = (forest, false)) ∨
      ∃ slot plot, forest.plot? slot = some plot ∧ index ∈ plot.livePoints ∧
        forest.remove index = (forest.strike slot plot index, true) := by
  cases hslot : forest.directory.slot? index with
  | none =>
    left
    rw [contains, Directory.contains, remove, hslot]
    exact ⟨rfl, rfl⟩
  | some slot =>
    obtain ⟨plot, hplot, hlive⟩ := (h.home index slot).mp hslot
    refine .inr ⟨slot, plot, hplot, hlive, ?_⟩
    rw [remove, hslot]
    dsimp only
    rw [hplot]
    rfl

/-- A removal keeps a forest sound, whether it finds the point or not. -/
theorem Sound.remove (h : forest.Sound) (index : Nat) : (forest.remove index).1.Sound := by
  rcases h.remove_cases index with ⟨-, heq⟩ | ⟨slot, plot, hplot, hlive, heq⟩ <;> rw [heq]
  · exact h
  · exact h.strike hplot hlive

/-- A removal says whether its point was there. -/
theorem Sound.remove_snd (h : forest.Sound) (index : Nat) :
    (forest.remove index).2 = forest.contains index := by
  rcases h.remove_cases index with ⟨habsent, heq⟩ | ⟨slot, plot, hplot, hlive, heq⟩ <;> rw [heq]
  · exact habsent.symm
  · exact ((h.contains_iff index).mpr ⟨slot, plot, hplot, hlive⟩).symm

/-- A removal deletes its point and keeps all others. -/
theorem Sound.contains_remove (h : forest.Sound) (index other : Nat) :
    (forest.remove index).1.contains other = true ↔
      other ≠ index ∧ forest.contains other = true := by
  rcases h.remove_cases index with ⟨habsent, heq⟩ | ⟨slot, plot, hplot, hlive, heq⟩ <;> rw [heq]
  · constructor
    · intro hother
      refine ⟨?_, hother⟩
      rintro rfl
      rw [habsent] at hother
      nomatch hother
    · exact And.right
  · rw [(h.strike hplot hlive).contains_iff, h.contains_iff]
    simp only [houses_strike h hplot hlive, exists_and_left]

end Striking

end Forest

end Proximity
