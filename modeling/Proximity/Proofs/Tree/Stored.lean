import Mathlib
import Proximity.Proofs.Loaded
import Proximity.Proofs.Tree.RoundTrip

/-!
# What is read back

A tree is written whatever its box and its points are, and it is read back exactly if no side of
its box is crossed and it has no more nodes than the reader believes in. A box around points has a
crossed side exactly on an axis on which none of them has an ordered coordinate.
-/

namespace Proximity

variable {N : Type} [Coordinate N] [LawfulCoordinate N]

namespace Source

variable {source : Source N} {points : List Nat} {box : Box N}

omit [LawfulCoordinate N] in
/-- Whether on every axis one of some points has an ordered coordinate. -/
def Spanned (source : Source N) (points : List Nat) : Prop :=
  ∀ axis < source.dims, ∃ index ∈ points, ∃ v, source.coordinate? index axis = some v ∧ v ≤ v

/-- Finite points are spanned if there are any. -/
theorem spanned_of_finite (hfinite : ∀ index ∈ points, source.FiniteAt index)
    (hne : points ≠ []) : source.Spanned points := by
  obtain ⟨index, hindex⟩ := List.exists_mem_of_ne_nil _ hne
  intro axis haxis
  obtain ⟨v, hv, hvfinite⟩ := hfinite index hindex axis haxis
  exact ⟨index, hindex, v, hv, Comparison.right hvfinite.1⟩

/-- A tight box without a crossed side has points on every axis. -/
theorem spanned_of_uncrossed (hrange : (Coordinate.lowest : N) < Coordinate.highest)
    (hbox : source.boxAround points = .ok box)
    (huncrossed : ∀ side ∈ box.sides, ¬ side.high < side.low) : source.Spanned points := by
  intro axis haxis
  obtain ⟨values, hreads, hside⟩ := (boxAround_eq_ok hbox).2 axis haxis
  have hnot := huncrossed _ (List.mem_of_getElem? hside)
  have hreach := Side.around_inReach values
  have hpoint {v : N} (hv : v ∈ values) (hself : v ≤ v) :
      ∃ index ∈ points, ∃ v, source.coordinate? index axis = some v ∧ v ≤ v := by
    obtain ⟨index, hindex, hread⟩ := hreads.exists_point v hv
    exact ⟨index, hindex, v, hread, hself⟩
  -- An end that is none of the values is the far end of the range.
  rcases Side.around_low values with hlow | hlow
  · rcases Side.around_high values with hhigh | hhigh
    · rw [hlow, hhigh] at hnot
      exact absurd hrange hnot
    · exact hpoint hhigh (Comparison.right hreach.2)
  · exact hpoint hlow (Comparison.left hreach.1)

end Source

namespace Tree

section Reading

omit [LawfulCoordinate N]

variable [Storable N] {tree : Tree N} {sourceSize : Nat}

/-- What is read back has no crossed side and not too many nodes. -/
theorem of_read_encode (hdims : tree.dims ≤ maxWord16) (hbox : tree.box.dims = tree.dims)
    (hsize : tree.size ≤ maxWord32) (hnodes : tree.nodes ≤ maxWord32) {rest : List UInt8}
    {ending : Ending} {result : (Tree N × Nat) × Stream}
    (h : read ⟨tree.encode sourceSize ++ rest, ending⟩ = .ok result) :
    tree.nodes ≤ 2 * tree.size ∧ ∀ side ∈ tree.box.sides, ¬ side.high < side.low := by
  have hdimsWord : wordAt (tree.header sourceSize) 2 2 = tree.dims :=
    wordAt_eq rfl (hdims.trans_lt maxWord16_lt)
  have hsizeWord : wordAt (tree.header sourceSize) 12 4 = tree.size :=
    wordAt_eq rfl (hsize.trans_lt maxWord32_lt)
  have hnodesWord : wordAt (tree.header sourceSize) 16 4 = tree.nodes :=
    wordAt_eq rfl (hnodes.trans_lt maxWord32_lt)
  rw [encode_eq] at h
  simp only [List.append_assoc] at h
  unfold Tree.read at h
  rw [Reader.bind_eq (Reader.take_append (length_header tree sourceSize))] at h
  obtain ⟨_, after, hcheck, h⟩ := Reader.bind_eq_ok.mp h
  obtain ⟨-, rfl⟩ := Reader.lift_eq_ok.mp hcheck
  dsimp only at h
  rw [hdimsWord, hsizeWord, hnodesWord, ← hbox] at h
  obtain ⟨-, h⟩ := Reader.guard_eq_ok.mp h
  obtain ⟨-, h⟩ := Reader.guard_eq_ok.mp h
  obtain ⟨hfew, h⟩ := Reader.guard_eq_ok.mp h
  rw [Reader.bind_eq (read_sides tree)] at h
  obtain ⟨huncrossed, -⟩ := Reader.guard_eq_ok.mp h
  refine ⟨Nat.le_of_not_lt (not_or.mp hfew).2, ?_⟩
  simpa only [List.any_eq_true, not_exists, not_and, decide_eq_true_eq] using huncrossed

end Reading

/-- Whether a tree passes the two checks of the reader that not every built tree passes. -/
def Readable (tree : Tree N) : Prop :=
  tree.nodes ≤ 2 * tree.size ∧ ∀ side ∈ tree.box.sides, ¬ side.high < side.low

omit [LawfulCoordinate N] in
/-- No more nodes are made than a cap allows. -/
theorem grow_capped {source : Source N} {options : BuildOptions} {levels count first cap : Nat}
    {box : Box N} {points : List Nat} {growth : Growth N} (hcap : options.maxNodes = some cap)
    (hcount : count ≤ cap) (h : grow source options levels count first box points = .ok growth) :
    growth.count ≤ cap := by
  induction levels generalizing count first box points growth with
  | zero => nomatch h
  | succ levels ih =>
    rw [grow] at h
    split at h
    · obtain rfl := Except.ok.inj h
      exact hcount
    · obtain ⟨cut, -, h⟩ := Outcome.bind_eq_ok.mp h
      obtain ⟨_, -, h⟩ := Outcome.bind_eq_ok.mp h
      obtain ⟨_, hroom, h⟩ := Outcome.bind_eq_ok.mp h
      obtain ⟨lower, -, h⟩ := Outcome.bind_eq_ok.mp h
      obtain ⟨upper, -, h⟩ := Outcome.bind_eq_ok.mp h
      obtain ⟨left, hleft, h⟩ := Outcome.bind_eq_ok.mp h
      obtain ⟨right, hright, h⟩ := Outcome.bind_eq_ok.mp h
      obtain rfl := Except.ok.inj h
      have hcounted := ih ((BuildOptions.requireRoom_eq_ok.mp hroom).2 cap hcap) hleft
      exact (ih hcounted hright : right.count ≤ cap)

namespace Built

variable {source : Source N} {options : BuildOptions} {points : List Nat}
variable {bounds : Option (Box N)} {tree : Tree N}

omit [LawfulCoordinate N] in
theorem nodes_le_cap (h : Built source options points bounds tree) {cap : Nat}
    (hcap : options.maxNodes = some cap) : tree.nodes ≤ cap := by
  obtain ⟨count, hgrow⟩ := h.grow
  have hroom := (BuildOptions.requireRoom_eq_ok.mp h.room).2 cap hcap
  have hle : count ≤ cap := grow_capped hcap hroom hgrow
  have hsum : count + 1 = 1 + tree.root.count := (grow_eq_ok (by decide) hgrow).2.1
  rw [nodes]
  omega

omit [LawfulCoordinate N] in
theorem tight (h : Built source options points none tree) :
    source.boxAround points = .ok tree.box := by
  rcases h.box with ⟨-, htight⟩ | ⟨hnone, -⟩
  · exact htight
  · nomatch hnone

/-- A tree with a tight box is readable if its points are spanned. -/
theorem readable_of_spanned (h : Built source options points none tree)
    (hspanned : source.Spanned points) : tree.Readable := by
  obtain ⟨node, hgrows, hnodes⟩ := h.exists_grows
  have hcount := (hgrows.count_of_tight h.tight h.leafSize_ne_zero h.points_ne_nil).1
  have hupright := h.upright (fun box hbox => (nomatch hbox)) hspanned
  refine ⟨?_, fun side hside => Comparison.not_lt (hupright side hside)⟩
  rw [h.size_eq, hnodes]
  omega

/-- A tree with a tight box is readable exactly if its points are spanned. -/
theorem readable_iff (h : Built source options points none tree)
    (hrange : (Coordinate.lowest : N) < Coordinate.highest) :
    tree.Readable ↔ source.Spanned points :=
  ⟨fun hreadable => Source.spanned_of_uncrossed hrange h.tight hreadable.2, h.readable_of_spanned⟩

variable [Storable N]

/-- A built tree is read from its bytes exactly if it is readable. -/
theorem read_encode_iff (h : Built source options points bounds tree) {sourceSize : Nat}
    (hinside : ∀ index ∈ points, index < sourceSize) (hlength : points.length ≤ sourceSize)
    (hword : sourceSize ≤ maxWord32) {rest : List UInt8} {ending : Ending}
    {result : (Tree N × Nat) × Stream} :
    read ⟨tree.encode sourceSize ++ rest, ending⟩ = .ok result ↔
      tree.Readable ∧ result = ((tree, sourceSize), ⟨rest, ending⟩) := by
  constructor
  · intro hread
    have hsize : tree.size ≤ maxWord32 := h.size_eq ▸ hlength.trans hword
    obtain ⟨hfew, huncrossed⟩ := of_read_encode (h.dims_eq ▸ h.dims_le)
      (h.box_dims.trans h.dims_eq.symm) hsize h.nodes_le hread
    have hfits := h.fits_of_uncrossed hinside hlength hword huncrossed
    exact ⟨⟨hfew, huncrossed⟩, Except.ok.inj (hread.symm.trans (hfits.read_encode hfew))⟩
  · rintro ⟨⟨hfew, huncrossed⟩, rfl⟩
    exact (h.fits_of_uncrossed hinside hlength hword huncrossed).read_encode hfew

end Built

/-- A tree over all points of a source is loaded from its bytes exactly if it is readable, and
without a box known beforehand if on every axis some coordinate is ordered. -/
theorem load_ofSource [Storable N] {source : Source N} {options : BuildOptions} {tree : Tree N}
    (hrange : (Coordinate.lowest : N) < Coordinate.highest)
    (h : ofSource source options = .ok tree) :
    (∀ result, load source (Stream.ofBytes (tree.encode source.size)) = .ok result ↔
      tree.Readable ∧ result = (tree, ⟨[], .closed⟩)) ∧
    (source.bounds = none → (tree.Readable ↔ source.Spanned (List.range source.size))) := by
  obtain ⟨hword, hbuilt⟩ := ofSource_eq_ok h
  refine ⟨?_, ?_⟩
  · rintro ⟨loaded, rest⟩
    have hread {result : (Tree N × Nat) × Stream} :
        read (Stream.ofBytes (tree.encode source.size)) = .ok result ↔
          tree.Readable ∧ result = ((tree, source.size), ⟨[], .closed⟩) := by
      rw [Stream.ofBytes, ← List.append_nil (tree.encode source.size)]
      exact hbuilt.read_encode_iff (fun index => List.mem_range.mp) List.length_range.le hword
    rw [load_eq_ok, hread]
    constructor
    · rintro ⟨⟨hreadable, hresult⟩, -, -⟩
      cases hresult
      exact ⟨hreadable, rfl⟩
    · rintro ⟨hreadable, hresult⟩
      cases hresult
      exact ⟨⟨hreadable, rfl⟩, hbuilt.size_eq.trans List.length_range, hbuilt.dims_eq⟩
  · intro hbounds
    rw [hbounds] at hbuilt
    exact hbuilt.readable_iff hrange

end Tree

end Proximity
