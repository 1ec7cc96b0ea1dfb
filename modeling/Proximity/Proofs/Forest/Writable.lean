import Mathlib
import Proximity.Forest.Format
import Proximity.Proofs.Forest.History
import Proximity.Proofs.Tree.Stored

/-!
# What there is to write of a forest

However a forest came about, its trees were built as its options say, over points of a source that
has grown into the present one, and every number of its header fits the word that it is written in.
-/

namespace Proximity

variable {N D : Type} [Coordinate N]

namespace Source

variable {source smaller : Source N} {points others : List Nat}

/-- Whether points span a box does not depend on their order. -/
theorem Spanned.congr (h : source.Spanned points) (hperm : others.Perm points) :
    source.Spanned others := by
  simp only [Spanned, hperm.mem_iff]
  exact h

/-- Points that were there span a box after growing exactly if they did before. -/
theorem Extends.spanned_iff (h : source.Extends smaller)
    (hinside : ∀ index ∈ points, index < smaller.size) :
    source.Spanned points ↔ smaller.Spanned points := by
  rw [Spanned, Spanned, h.dims_eq]
  refine forall₂_congr fun axis _ => exists_congr fun index => and_congr_right fun hindex => ?_
  rw [h.coordinate?_eq index (hinside index hindex)]

end Source

namespace Tree

/-- Whether a tree was built with some options over points of a source, as it is or before it grew
to what it is. -/
def BuiltBefore (source : Source N) (options : BuildOptions) (tree : Tree N) : Prop :=
  ∃ smaller points, source.Extends smaller ∧ (∀ index ∈ points, index < smaller.size) ∧
    Built smaller options points none tree

namespace BuiltBefore

variable {source smaller : Source N} {options : BuildOptions} {tree : Tree N}

/-- A tree built just now was built before. -/
theorem of_build {points : List Nat} (h : build source options points none = .ok tree)
    (hinside : ∀ index ∈ points, index < source.size) : tree.BuiltBefore source options :=
  ⟨source, points, .refl source, hinside, build_eq_ok h⟩

/-- A tree stays built before when the source grows on. -/
theorem grown (h : tree.BuiltBefore smaller options) (hext : source.Extends smaller) :
    tree.BuiltBefore source options := by
  obtain ⟨least, points, hleast, hinside, hbuilt⟩ := h
  exact ⟨least, points, hext.trans hleast, hinside, hbuilt⟩

/-- A tree has the dimensions of the source it was built over. -/
theorem dims_eq (h : tree.BuiltBefore source options) : tree.dims = source.dims := by
  obtain ⟨smaller, points, hext, -, hbuilt⟩ := h
  exact hbuilt.dims_eq.trans hext.dims_eq.symm

/-- A tree that was built has no more nodes than were allowed. -/
theorem nodes_le_cap (h : tree.BuiltBefore source options) {cap : Nat}
    (hcap : options.maxNodes = some cap) : tree.nodes ≤ cap := by
  obtain ⟨smaller, points, -, -, hbuilt⟩ := h
  exact hbuilt.nodes_le_cap hcap

variable [LawfulCoordinate N]

/-- A tree that was built has points of the source only. -/
theorem inside (h : tree.BuiltBefore source options) : ∀ index ∈ tree.order,
    index < source.size := by
  obtain ⟨smaller, points, hext, hinside, hbuilt⟩ := h
  intro index hindex
  have hindex := hbuilt.order_perm.mem_iff.mp (Array.mem_toList_iff.mpr hindex)
  exact (hinside index hindex).trans_le hext.size_le

/-- No tree is built over no points. -/
theorem order_ne_nil (h : tree.BuiltBefore source options) : tree.order.toList ≠ [] := by
  obtain ⟨smaller, points, -, -, hbuilt⟩ := h
  intro hnil
  exact hbuilt.points_ne_nil (hnil ▸ hbuilt.order_perm).nil_eq.symm

/-- A tree over points that span a box is accepted when it is read. -/
theorem readable_of_spanned (h : tree.BuiltBefore source options)
    (hspanned : source.Spanned tree.order.toList) : tree.Readable := by
  obtain ⟨smaller, points, hext, hinside, hbuilt⟩ := h
  exact hbuilt.readable_of_spanned
    ((hext.spanned_iff hinside).mp (hspanned.congr hbuilt.order_perm.symm))

/-- With more than one coordinate value, a tree is accepted exactly if its points span a box. -/
theorem readable_iff (h : tree.BuiltBefore source options)
    (hrange : (Coordinate.lowest : N) < Coordinate.highest) :
    tree.Readable ↔ source.Spanned tree.order.toList := by
  refine ⟨?_, h.readable_of_spanned⟩
  obtain ⟨smaller, points, hext, hinside, hbuilt⟩ := h
  rw [hbuilt.readable_iff hrange, ← hext.spanned_iff hinside]
  exact fun hspanned => hspanned.congr hbuilt.order_perm

variable [Storable N]

/-- A tree built before is read from its bytes exactly if it is readable. -/
theorem read_encode_iff (h : tree.BuiltBefore source options) (hnodup : tree.order.toList.Nodup)
    (hword : source.size ≤ maxWord32) (rest : List UInt8) (ending : Ending)
    (result : (Tree N × Nat) × Stream) :
    read ⟨tree.encode source.size ++ rest, ending⟩ = .ok result ↔
      tree.Readable ∧ result = ((tree, source.size), ⟨rest, ending⟩) := by
  obtain ⟨smaller, points, hext, hinside, hbuilt⟩ := h
  have hinside' (index) (hindex : index ∈ points) : index < source.size :=
    (hinside index hindex).trans_le hext.size_le
  refine hbuilt.read_encode_iff hinside' ?_ hword
  calc points.length
      ≤ (List.range source.size).length :=
        ((hbuilt.order_perm.nodup_iff.mp hnodup).subperm fun index hindex =>
          List.mem_range.mpr (hinside' index hindex)).length_le
    _ = source.size := List.length_range

end BuiltBefore

end Tree

namespace Forest

variable {forest : Forest N D} {source : Source N}

/-- What is known of a forest that is to be written. -/
structure Writable (forest : Forest N D) (source : Source N) : Prop where
  sound : forest.Sound
  dims_eq : source.dims = forest.dims
  dims_ne_zero : forest.dims ≠ 0
  dims_le : forest.dims ≤ maxWord16
  valid : forest.options.validate = .ok ()
  slots_le : forest.slots.length ≤ maxSlots
  digits : ∀ digit, forest.slots.length ≤ digit → forest.counter.testBit digit = false
  built : ∀ slot plot, forest.plot? slot = some plot →
    plot.tree.BuiltBefore source forest.options

namespace Writable

/-- A forest without points is writable over every source of its dimensions. -/
theorem empty {options : BuildOptions} {metric : Metric N D}
    (h : Forest.empty source.dims options metric = .ok forest) : forest.Writable source := by
  obtain ⟨hvalid, hzero, hdims, rfl⟩ := empty_eq_ok.mp h
  exact ⟨sound_empty _ _ _ (Nat.zero_le _), rfl, hzero, hdims, hvalid, Nat.zero_le _,
    fun digit _ => Nat.zero_testBit digit, fun slot plot hplot => (nomatch hplot)⟩

/-- A forest stays writable when the source grows. -/
theorem grown {smaller : Source N} (h : forest.Writable smaller) (hext : source.Extends smaller) :
    forest.Writable source where
  sound := h.sound
  dims_eq := hext.dims_eq.trans h.dims_eq
  dims_ne_zero := h.dims_ne_zero
  dims_le := h.dims_le
  valid := h.valid
  slots_le := h.slots_le
  digits := h.digits
  built slot plot hplot := (h.built slot plot hplot).grown hext

/-- A removal leaves a forest writable. -/
theorem remove (h : forest.Writable source) (index : Nat) :
    (forest.remove index).1.Writable source := by
  have hsound := h.sound.remove index
  rcases h.sound.remove_cases index with ⟨-, heq⟩ | ⟨slot, plot, hplot, -, heq⟩
  · rwa [heq]
  rw [heq] at hsound ⊢
  have hlength : (forest.strike slot plot index).slots.length = forest.slots.length :=
    List.length_set
  refine ⟨hsound, h.dims_eq, h.dims_ne_zero, h.dims_le, h.valid, hlength ▸ h.slots_le,
    hlength ▸ h.digits, ?_⟩
  intro other found hfound
  rw [plot?_strike hplot] at hfound
  split at hfound
  · obtain rfl := Option.some.inj hfound
    exact h.built slot plot hplot
  · exact h.built other found hfound

variable [LawfulCoordinate N]

/-- A successful insertion leaves a forest writable. -/
theorem insert (h : forest.Writable source) {index : Nat} {final : Forest N D}
    (hinsert : forest.insert source index = .ok final) : final.Writable source := by
  have hsound := h.sound.insert hinsert
  obtain ⟨tree, hinserted, rfl⟩ := insert_eq_ok hinsert
  have hdigits : forest.counter + 1 < 2 ^ 64 := by
    have hroom := hinserted.counter_lt
    rw [maxWord64] at hroom
    omega
  have hlength := length_settle forest (carry 64 forest.counter) tree
  refine ⟨hsound, h.dims_eq, h.dims_ne_zero, h.dims_le, h.valid, ?_, ?_, ?_⟩
  · -- The digit that the carry stops at is set afterwards, so it is one of the digits there are.
    have hset := (carry_spec hdigits).2 (carry 64 forest.counter)
    rw [if_neg (Nat.lt_irrefl _), if_pos rfl] at hset
    have hcarry : carry 64 forest.counter < 64 := by
      by_contra hge
      have hlt : forest.counter + 1 < 2 ^ carry 64 forest.counter :=
        hdigits.trans_le (Nat.pow_le_pow_right Nat.two_pos (Nat.le_of_not_lt hge))
      rw [Nat.testBit_lt_two_pow hlt] at hset
      cases hset
    rw [hlength]
    exact Nat.max_le.mpr ⟨hcarry, h.slots_le⟩
  · intro digit hdigit
    rw [hlength] at hdigit
    show (forest.counter + 1).testBit digit = false
    rw [(carry_spec hdigits).2, if_neg (by omega), if_neg (by omega)]
    exact h.digits digit (by omega)
  · intro slot plot hplot
    rw [plot?_settle] at hplot
    split at hplot
    · cases hplot
    split at hplot
    · obtain rfl := Option.some.inj hplot
      refine .of_build hinserted.build ?_
      intro other hother
      rcases mem_merged.mp hother with rfl | ⟨lower, -, below, hbelow, hlive⟩
      · exact hinserted.lt_size
      · exact (h.built lower below hbelow).inside other (Plot.mem_livePoints.mp hlive).1
    · exact h.built slot plot hplot

end Writable

/-- However a forest came about, it can be written over its source. -/
theorem History.writable [LawfulCoordinate N] (h : History source forest) :
    forest.Writable source := by
  induction h with
  | empty hempty => exact .empty hempty
  | @call source forest call _ ih =>
    refine perform_induction (motive := fun forest => forest.Writable source) ?_ ?_ call ih
    · exact fun forest index final hforest hinsert => hforest.insert hinsert
    · exact fun forest index hforest => hforest.remove index
  | grow _ hext ih => exact ih.grown hext

end Forest

end Proximity
