import Mathlib
import Proximity.Proofs.Tree.Alike
import Proximity.Proofs.Tree.Shape
import Proximity.Proofs.Tree.Stored

/-!
# Whether building comes to an end

A cut parts its points unless they slip: all of them stay on the right. From then on the box is
tight, so if a range slips in its tight box the same cut comes again, and building stalls until
there is no room for more nodes. It takes a coordinate above the range for that. In all other cases
building ends with fewer nodes than twice the points, or two more if a box known beforehand made
the points slip once.
-/

namespace Proximity

variable {N : Type} [Coordinate N]

namespace Source

/-- Whether a cut of points in a box leaves all of them on the right: the box is lopsided, or its
longest side does not part them and the tight box is lopsided. -/
def Slips (source : Source N) (box : Box N) (points : List Nat) : Prop :=
  source.Lopsided box points ∨
    (∃ rest, source.cutLongest box points = .ok (rest, none)) ∧
      ∃ tight, source.boxAround points = .ok tight ∧ source.Lopsided tight points

/-- Whether building over points in a box comes to a range that is too large for a leaf and slips
in its tight box. -/
inductive Stalls (source : Source N) (leafSize : Nat) : Box N → List Nat → Prop
  | atOnce {box points} : leafSize < points.length → source.boxAround points = .ok box →
      source.Lopsided box points → Stalls source leafSize box points
  | inBelow {box points cut lower} : leafSize < points.length → source.cut box points = .ok cut →
      source.boxAround cut.below = .ok lower → Stalls source leafSize lower cut.below →
      Stalls source leafSize box points
  | inAbove {box points cut upper} : leafSize < points.length → source.cut box points = .ok cut →
      source.boxAround cut.above = .ok upper → Stalls source leafSize upper cut.above →
      Stalls source leafSize box points

/-- Whether no coordinate of some points is above the range. -/
def NoneAbove (source : Source N) (points : List Nat) : Prop :=
  ∀ index ∈ points, ∀ axis < source.dims, ∀ v, source.coordinate? index axis = some v →
    ¬ Coordinate.highest < v

variable {source : Source N} {box : Box N} {points : List Nat} {leafSize : Nat}

theorem NoneAbove.not_lopsided (h : source.NoneAbove points) (hbox : box.dims = source.dims) :
    ¬ source.Lopsided box points := by
  rintro ⟨side, hside, -, -, index, hindex, v, hv, habove⟩
  exact h index hindex box.widest (hbox ▸ (List.getElem?_eq_some_iff.mp hside).1) v hv habove

theorem NoneAbove.not_slips (h : source.NoneAbove points) (hbox : box.dims = source.dims) :
    ¬ source.Slips box points := by
  rintro (hlopsided | ⟨-, tight, htight, hlopsided⟩)
  · exact h.not_lopsided hbox hlopsided
  · exact h.not_lopsided (boxAround_eq_ok htight).1 hlopsided

variable [LawfulCoordinate N]

/-- No finite coordinate is above the range. -/
theorem noneAbove_of_finite (hfinite : ∀ index ∈ points, source.FiniteAt index) :
    source.NoneAbove points := by
  intro index hindex axis haxis v hv
  obtain ⟨w, hw, -, hle⟩ := hfinite index hindex axis haxis
  obtain rfl := Option.some.inj (hv.symm.trans hw)
  exact Comparison.not_lt hle

/-- A build does not stall if no coordinate lies above the finite ones. -/
theorem NoneAbove.not_stalls (h : source.NoneAbove points) :
    ¬ source.Stalls leafSize box points := by
  intro hstalls
  induction hstalls with
  | atOnce _ htight hlopsided => exact h.not_lopsided (boxAround_eq_ok htight).1 hlopsided
  | inBelow _ hcut _ _ ih =>
    exact ih fun index hindex =>
      h index ((cut_perm hcut).mem_iff.mp (List.mem_append_left _ hindex))
  | inAbove _ hcut _ _ ih =>
    exact ih fun index hindex =>
      h index ((cut_perm hcut).mem_iff.mp (List.mem_append_right _ hindex))

/-- Points with all their coordinates are cut, whatever these are. -/
theorem exists_cut (hdims : source.dims ≠ 0) (hbox : box.dims = source.dims)
    (hcomplete : ∀ index ∈ points, source.Complete index) (hpoints : points ≠ []) :
    ∃ cut, source.cut box points = .ok cut := by
  obtain ⟨⟨rest, found⟩, hfirst⟩ := exists_cutLongest hcomplete hbox
  unfold cut
  simp only [hfirst, Outcome.ok_bind]
  cases found with
  | some cut => exact ⟨cut, rfl⟩
  | none =>
    have hrest := cutLongest_perm hfirst
    have hcomplete' : ∀ index ∈ rest, source.Complete index := fun index hindex =>
      hcomplete index (hrest.mem_iff.mp hindex)
    obtain ⟨tight, htight⟩ := exists_boxAround hcomplete'
    obtain ⟨⟨last, found⟩, hagain⟩ := exists_cutLongest hcomplete' (boxAround_eq_ok htight).1
    simp only [htight, hagain, Outcome.ok_bind]
    cases found with
    | some cut => exact ⟨cut, rfl⟩
    | none =>
      have hlast := (cutLongest_perm hagain).trans hrest
      cases last with
      | nil => exact absurd hlast.nil_eq.symm hpoints
      | cons first last =>
        have hfirst := hcomplete first (hlast.mem_iff.mp List.mem_cons_self)
        obtain ⟨v, hread⟩ := hfirst.exists_read (Nat.pos_of_ne_zero hdims)
        exact ⟨_, by simp only [hread, Outcome.ok_bind]; rfl⟩

/-- Both parts of such a cut have all their coordinates again, and tight boxes. -/
theorem exists_parts (hdims : source.dims ≠ 0) (hbox : box.dims = source.dims)
    (hcomplete : ∀ index ∈ points, source.Complete index) (hpoints : points ≠ []) :
    ∃ cut lower upper, source.cut box points = .ok cut ∧
      (∀ index ∈ cut.below, source.Complete index) ∧ source.boxAround cut.below = .ok lower ∧
      (∀ index ∈ cut.above, source.Complete index) ∧ source.boxAround cut.above = .ok upper := by
  obtain ⟨cut, hcut⟩ := exists_cut hdims hbox hcomplete hpoints
  have hbelow : ∀ index ∈ cut.below, source.Complete index := fun index hindex =>
    hcomplete index ((cut_perm hcut).mem_iff.mp (List.mem_append_left _ hindex))
  have habove : ∀ index ∈ cut.above, source.Complete index := fun index hindex =>
    hcomplete index ((cut_perm hcut).mem_iff.mp (List.mem_append_right _ hindex))
  obtain ⟨lower, hlower⟩ := exists_boxAround hbelow
  obtain ⟨upper, hupper⟩ := exists_boxAround habove
  exact ⟨cut, lower, upper, hcut, hbelow, hlower, habove, hupper⟩

/-- A cut has nothing on the left exactly if the points slip. -/
theorem cut_below_eq_nil_iff {cut : Cut N} (hcut : source.cut box points = .ok cut)
    (hcomplete : ∀ index ∈ points, source.Complete index) (hlength : 2 ≤ points.length) :
    cut.below = [] ↔ source.Slips box points := by
  obtain ⟨tight, htight⟩ := exists_boxAround hcomplete
  rcases cut_eq_ok hcut with ⟨rest, hfirst⟩ | ⟨rest, other, last, hnone, hother, hagain⟩
  · rw [Slips, cutLongest_lopsided_iff hfirst]
    constructor
    · exact fun hbelow => .inl ⟨cut, rfl, hbelow⟩
    · rintro (⟨found, hfound, hbelow⟩ | ⟨⟨rest', hnone⟩, -⟩)
      · exact Option.some.inj hfound ▸ hbelow
      · nomatch (Prod.mk.inj (Except.ok.inj (hfirst.symm.trans hnone))).2
  · have hperm := cutLongest_perm hnone
    have hlopsided : source.Lopsided other rest ↔ source.Slips box points := by
      constructor
      · exact fun h => .inr ⟨⟨rest, hnone⟩, tight, htight, h.congr hperm.symm hother htight⟩
      · rintro (h | ⟨-, tight', htight', h⟩)
        · obtain ⟨found, hfound, -⟩ := (cutLongest_lopsided_iff hnone).mp h
          nomatch hfound
        · exact h.congr hperm htight' hother
    rw [← hlopsided]
    rcases hagain with hfound | ⟨first, v, hfound, -, -, rfl⟩
    · rw [cutLongest_lopsided_iff hfound]
      exact ⟨fun hbelow => ⟨cut, rfl, hbelow⟩,
        fun ⟨found, heq, hbelow⟩ => Option.some.inj heq ▸ hbelow⟩
    · rw [cutLongest_lopsided_iff hfound]
      constructor
      · intro hbelow
        have hnil := congrArg List.length hbelow
        have hlast := ((cutLongest_perm hfound).trans hperm).length_eq
        rw [List.length_take, List.length_nil] at hnil
        omega
      · rintro ⟨found, heq, -⟩
        nomatch heq

omit [LawfulCoordinate N] in
/-- In a tight box points slip exactly if it is lopsided. -/
theorem slips_of_tight (htight : source.boxAround points = .ok box) :
    source.Slips box points ↔ source.Lopsided box points := by
  refine ⟨?_, .inl⟩
  rintro (h | ⟨-, tight, htight', h⟩)
  · exact h
  · obtain rfl := Except.ok.inj (htight.symm.trans htight')
    exact h

end Source

section Growing

variable [LawfulCoordinate N] {source : Source N} {leafSize first : Nat} {box : Box N}
variable {points order : List Nat} {node : Node N}

/-- Where building stalls no subtree comes about. -/
theorem Grows.not_stalls (h : Grows source leafSize first box points node order) :
    ¬ source.Stalls leafSize box points := by
  intro hstalls
  induction hstalls generalizing first node order with
  | atOnce hmany htight hlopsided => exact h.not_lopsided htight hmany hlopsided
  | inBelow hmany hcut hlower _ ih =>
    cases h with
    | leaf hfits => exact absurd hmany (Nat.not_lt.mpr hfits)
    | branch _ hcut' hlower' _ hleft _ =>
      obtain rfl := Except.ok.inj (hcut.symm.trans hcut')
      obtain rfl := Except.ok.inj (hlower.symm.trans hlower')
      exact ih hleft
  | inAbove hmany hcut hupper _ ih =>
    cases h with
    | leaf hfits => exact absurd hmany (Nat.not_lt.mpr hfits)
    | branch _ hcut' _ hupper' _ hright =>
      obtain rfl := Except.ok.inj (hcut.symm.trans hcut')
      obtain rfl := Except.ok.inj (hupper.symm.trans hupper')
      exact ih hright

/-- From a tight box a subtree comes about unless building stalls. -/
private theorem exists_grows_of_tight (hdims : source.dims ≠ 0) (hleaf : leafSize ≠ 0)
    (hcomplete : ∀ index ∈ points, source.Complete index)
    (htight : source.boxAround points = .ok box) (hstalls : ¬ source.Stalls leafSize box points)
    (first : Nat) : ∃ node order, Grows source leafSize first box points node order := by
  -- Both parts of a cut are shorter than the points, as these do not slip.
  induction hlength : points.length using Nat.strong_induction_on generalizing first box points with
  | _ length ih =>
    subst hlength
    by_cases hfits : points.length ≤ leafSize
    · exact ⟨_, _, .leaf hfits⟩
    have hmany : leafSize < points.length := Nat.lt_of_not_le hfits
    have hpoints : points ≠ [] := List.ne_nil_of_length_pos (by omega)
    obtain ⟨cut, lower, upper, hcut, hcompletel, hlower, hcompleter, hupper⟩ :=
      Source.exists_parts hdims (Source.boxAround_eq_ok htight).1 hcomplete hpoints
    have hbelow : cut.below ≠ [] := by
      rw [Ne, Source.cut_below_eq_nil_iff hcut hcomplete (by omega), Source.slips_of_tight htight]
      exact fun hlopsided => hstalls (.atOnce hmany htight hlopsided)
    have habove : cut.above ≠ [] :=
      Source.cut_above hcut (Source.boxAround_encloses htight) (by omega)
    have hsum := (Source.cut_perm hcut).length_eq
    rw [List.length_append] at hsum
    have hposl := List.length_pos_of_ne_nil hbelow
    have hposr := List.length_pos_of_ne_nil habove
    obtain ⟨left, leftOrder, hleft⟩ := ih _ (by omega) hcompletel hlower
      (fun h => hstalls (.inBelow hmany hcut hlower h)) first rfl
    obtain ⟨right, rightOrder, hright⟩ := ih _ (by omega) hcompleter hupper
      (fun h => hstalls (.inAbove hmany hcut hupper h)) (first + cut.below.length) rfl
    exact ⟨_, _, .branch hmany hcut hlower hupper hleft hright⟩

/-- A subtree comes about unless building stalls. -/
theorem exists_grows (hdims : source.dims ≠ 0) (hleaf : leafSize ≠ 0)
    (hbox : box.dims = source.dims) (hcomplete : ∀ index ∈ points, source.Complete index)
    (hstalls : ¬ source.Stalls leafSize box points) (first : Nat) :
    ∃ node order, Grows source leafSize first box points node order := by
  by_cases hfits : points.length ≤ leafSize
  · exact ⟨_, _, .leaf hfits⟩
  have hmany : leafSize < points.length := Nat.lt_of_not_le hfits
  have hpoints : points ≠ [] := List.ne_nil_of_length_pos (by omega)
  obtain ⟨cut, lower, upper, hcut, hcompletel, hlower, hcompleter, hupper⟩ :=
    Source.exists_parts hdims hbox hcomplete hpoints
  obtain ⟨left, leftOrder, hleft⟩ := exists_grows_of_tight hdims hleaf hcompletel hlower
    (fun h => hstalls (.inBelow hmany hcut hlower h)) first
  obtain ⟨right, rightOrder, hright⟩ := exists_grows_of_tight hdims hleaf hcompleter hupper
    (fun h => hstalls (.inAbove hmany hcut hupper h)) (first + cut.below.length)
  exact ⟨_, _, .branch hmany hcut hlower hupper hleft hright⟩

/-- A subtree has fewer nodes than twice its points, or two more if its box is lopsided. -/
theorem Grows.count_le (h : Grows source leafSize first box points node order)
    (hencloses : box.Encloses source points) (hleaf : leafSize ≠ 0) (hpoints : points ≠ []) :
    node.count ≤ 2 * points.length + 1 ∧
      (¬ source.Lopsided box points → node.count + 1 ≤ 2 * points.length) := by
  obtain ⟨hover, hunder⟩ := h.count_of_encloses hencloses hleaf hpoints
  -- The number of nodes is odd.
  have hodd := node.count_eq
  constructor
  · by_cases hgrown : leafSize = 1 ∧ 2 ≤ points.length ∧ source.Lopsided box points
    · exact (hover hgrown).le
    · exact (hunder hgrown).trans (Nat.le_succ _)
  · intro hnot
    have hle := hunder fun hgrown => hnot hgrown.2.2
    omega

omit [LawfulCoordinate N] in
/-- There is no second subtree for the same points. -/
theorem Grows.unique {node' : Node N} {order' : List Nat}
    (h : Grows source leafSize first box points node order)
    (h' : Grows source leafSize first box points node' order') : node = node' ∧ order = order' := by
  induction h generalizing node' order' with
  | leaf hfits =>
    cases h' with
    | leaf _ => exact ⟨rfl, rfl⟩
    | branch hmany => exact absurd hmany (Nat.not_lt.mpr hfits)
  | branch hmany hcut hlower hupper _ _ ihl ihr =>
    cases h' with
    | leaf hfits => exact absurd hmany (Nat.not_lt.mpr hfits)
    | branch _ hcut' hlower' hupper' hleft' hright' =>
      obtain rfl := Except.ok.inj (hcut.symm.trans hcut')
      obtain rfl := Except.ok.inj (hlower.symm.trans hlower')
      obtain rfl := Except.ok.inj (hupper.symm.trans hupper')
      obtain ⟨rfl, rfl⟩ := ihl hleft'
      obtain ⟨rfl, rfl⟩ := ihr hright'
      exact ⟨rfl, rfl⟩

end Growing

namespace BuildOptions

/-- The most nodes that building makes. -/
def limit (options : BuildOptions) : Nat := options.maxNodes.elim maxWord32 (min maxWord32)

theorem limit_le (options : BuildOptions) : options.limit ≤ maxWord32 := by
  unfold limit
  cases options.maxNodes with
  | none => exact le_rfl
  | some cap => exact Nat.min_le_left _ _

/-- There is room as long as there are fewer nodes than that. -/
theorem requireRoom_eq (options : BuildOptions) (count : Nat) :
    options.requireRoom count =
      if options.limit ≤ count then .error (.nodesExhausted count) else .ok () := by
  have hiff : HasRoom options.maxNodes count ↔ ¬ options.limit ≤ count := by
    unfold limit
    cases options.maxNodes with
    | none => exact hasRoom_none.trans Nat.not_le.symm
    | some cap => rw [hasRoom_some, Option.elim_some, Nat.not_le, lt_min_iff]
  rw [requireRoom, requireRoomUnder_eq, ← ite_not]
  simp only [hiff, not_not]

end BuildOptions

namespace Tree

variable {source : Source N} {options : BuildOptions} {levels count first : Nat} {box : Box N}
variable {points order : List Nat} {node : Node N}

/-- A subtree that comes about is grown if there is room for its nodes, and kept with the ends of
its leaves as words. -/
theorem grow_of_grows (h : Grows source options.leafSize first box points node order)
    (hroom : count + node.count ≤ options.limit + 1) (hlevels : node.count ≤ levels) :
    grow source options levels count first box points =
      .ok ⟨node.stored, order, count + node.count - 1⟩ := by
  induction h generalizing levels count with
  | leaf hfits =>
    obtain ⟨levels, rfl⟩ := Nat.exists_eq_add_of_le' hlevels
    rw [Node.count, Node.stored, grow, if_pos hfits, Nat.add_sub_cancel]
  | @branch first box points cut lower upper left right leftOrder rightOrder hmany hcut hlower
      hupper _ _ ihl ihr =>
    have hposl := left.count_pos
    have hposr := right.count_pos
    rw [Node.count] at hroom hlevels
    obtain ⟨levels, rfl⟩ : ∃ n, levels = n + 1 := ⟨levels - 1, by omega⟩
    rw [grow, if_neg (Nat.not_le.mpr hmany)]
    simp only [hcut, hlower, hupper, BuildOptions.requireRoom_eq, Outcome.ok_bind,
      if_neg (show ¬ options.limit ≤ count by omega),
      if_neg (show ¬ options.limit ≤ count + 1 by omega)]
    rw [ihl (by omega) (by omega), Outcome.ok_bind,
      ihr (show count + 2 + left.count - 1 + right.count ≤ options.limit + 1 by omega) (by omega),
      Outcome.ok_bind, Node.count, Node.stored]
    refine congrArg (fun total => Except.ok (Growth.mk _ _ total)) ?_
    dsimp only
    omega

variable [LawfulCoordinate N]

/-- A subtree over points with all their coordinates is grown, or else there is no more room. -/
theorem grow_ends (first : Nat) (hdims : source.dims ≠ 0) (hbox : box.dims = source.dims)
    (hcomplete : ∀ index ∈ points, source.Complete index) (hcount : count ≤ options.limit)
    (hlevels : options.limit < count + levels) :
    (∃ growth, grow source options levels count first box points = .ok growth ∧
        count ≤ growth.count ∧ growth.count ≤ options.limit) ∨
      grow source options levels count first box points =
        .error (.nodesExhausted options.limit) := by
  induction levels generalizing count first box points with
  | zero => omega
  | succ levels ih =>
    rw [grow]
    split
    · exact .inl ⟨_, rfl, le_rfl, hcount⟩
    next hfits =>
    have hpoints : points ≠ [] := List.ne_nil_of_length_pos (by omega)
    obtain ⟨cut, lower, upper, hcut, hcompletel, hlower, hcompleter, hupper⟩ :=
      Source.exists_parts hdims hbox hcomplete hpoints
    simp only [hcut, hlower, hupper, BuildOptions.requireRoom_eq, Outcome.ok_bind]
    by_cases hfull : options.limit ≤ count
    · rw [if_pos hfull, Nat.le_antisymm hfull hcount]
      exact .inr rfl
    rw [if_neg hfull, Outcome.ok_bind]
    by_cases hfull' : options.limit ≤ count + 1
    · rw [if_pos hfull', Nat.le_antisymm hfull' (by omega)]
      exact .inr rfl
    rw [if_neg hfull', Outcome.ok_bind]
    rcases ih first (Source.boxAround_eq_ok hlower).1 hcompletel
        (show count + 2 ≤ options.limit by omega) (by omega) with
      ⟨left, hleft, hless, hleftCount⟩ | hleft
    · rw [hleft, Outcome.ok_bind]
      rcases ih (first + cut.below.length) (Source.boxAround_eq_ok hupper).1 hcompleter
          hleftCount (by omega) with ⟨right, hright, hmore, hrightCount⟩ | hright
      · rw [hright]
        exact .inl ⟨_, rfl, by dsimp only; omega, hrightCount⟩
      · rw [hright]
        exact .inr rfl
    · rw [hleft]
      exact .inr rfl

/-- Whether a tree is built as it should be: the options are valid, there are points and axes and
not too many of these, no coordinate is missing, and a box known beforehand covers the points. -/
structure Buildable (source : Source N) (options : BuildOptions) (points : List Nat)
    (bounds : Option (Box N)) : Prop where
  valid : options.validate = .ok ()
  dims_ne_zero : source.dims ≠ 0
  dims_le : source.dims ≤ maxWord16
  points_ne_nil : points ≠ []
  complete : ∀ index ∈ points, source.Complete index
  covers : ∀ box, bounds = some box → box.dims = source.dims ∧ box.Encloses source points

/-- The box of a tree's root: the tight one, unless one is known beforehand. -/
def RootBox (source : Source N) (points : List Nat) (bounds : Option (Box N)) (box : Box N) : Prop :=
  (bounds = none ∧ source.boxAround points = .ok box) ∨ bounds = some box

omit [LawfulCoordinate N] in
/-- A tree that was built stays within its limit. -/
theorem Built.nodes_le_limit {bounds : Option (Box N)} {tree : Tree N}
    (h : Built source options points bounds tree) : tree.nodes ≤ options.limit := by
  unfold BuildOptions.limit
  cases hcap : options.maxNodes with
  | none => exact h.nodes_le
  | some cap => exact le_min h.nodes_le (h.nodes_le_cap hcap)

omit [LawfulCoordinate N] in
theorem Built.rootBox {bounds : Option (Box N)} {tree : Tree N}
    (h : Built source options points bounds tree) (hbox : RootBox source points bounds box) :
    tree.box = box := by
  rcases h.box, hbox with ⟨⟨hnone, htight⟩ | ⟨hsome, -⟩, ⟨hnone', htight'⟩ | hsome'⟩
  · exact Except.ok.inj (htight.symm.trans htight')
  · nomatch hnone.symm.trans hsome'
  · nomatch hnone'.symm.trans hsome
  · exact Option.some.inj (hsome.symm.trans hsome')

namespace Buildable

variable {bounds : Option (Box N)} {tree : Tree N}

omit [LawfulCoordinate N] in
theorem leafSize_ne_zero (h : Buildable source options points bounds) : options.leafSize ≠ 0 := by
  exact (BuildOptions.validate_eq_ok.mp h.valid).1

omit [LawfulCoordinate N] in
theorem exists_rootBox (h : Buildable source options points bounds) :
    ∃ box, RootBox source points bounds box := by
  cases bounds with
  | none =>
    obtain ⟨box, hbox⟩ := Source.exists_boxAround h.complete
    exact ⟨box, .inl ⟨rfl, hbox⟩⟩
  | some box => exact ⟨box, .inr rfl⟩

/-- The box of the root covers what can be built over. -/
theorem rootBox_covers (h : Buildable source options points bounds)
    (hbox : RootBox source points bounds box) :
    box.dims = source.dims ∧ box.Encloses source points := by
  rcases hbox with ⟨-, htight⟩ | hbounds
  · exact ⟨(Source.boxAround_eq_ok htight).1, Source.boxAround_encloses htight⟩
  · exact h.covers box hbounds

omit [LawfulCoordinate N] in
/-- Nothing stands in the way of growing a tree from its root box. -/
theorem build_eq (h : Buildable source options points bounds)
    (hbox : RootBox source points bounds box) :
    build source options points bounds =
      (options.requireRoom 0 >>= fun _ => grow source options maxWord32 1 0 box points >>=
        fun growth => .ok ⟨source.dims, options.leafSize, growth.order.toArray, box,
          growth.node⟩) :=
  build_eq_grow h.valid h.dims_ne_zero h.dims_le h.points_ne_nil
    (hbox.imp_right fun hbounds => ⟨hbounds, (h.covers box hbounds).1⟩)

/-- A tree is built, or else there is no more room. -/
theorem ends (h : Buildable source options points bounds) :
    (∃ tree, build source options points bounds = .ok tree) ∨
      build source options points bounds = .error (.nodesExhausted options.limit) := by
  obtain ⟨box, hbox⟩ := h.exists_rootBox
  rw [h.build_eq hbox, BuildOptions.requireRoom_eq]
  by_cases hfull : options.limit ≤ 0
  · rw [if_pos hfull, Nat.le_zero.mp hfull]
    exact .inr rfl
  have hlimit := options.limit_le
  rw [if_neg hfull, Outcome.ok_bind]
  rcases grow_ends 0 h.dims_ne_zero (h.rootBox_covers hbox).1 h.complete
      (show 1 ≤ options.limit by omega) (show options.limit < 1 + maxWord32 by omega) with
    ⟨growth, hgrow, -⟩ | hgrow
  · rw [hgrow]
    exact .inl ⟨_, rfl⟩
  · rw [hgrow]
    exact .inr rfl

/-- Where building stalls it ends for want of room. -/
theorem build_of_stalls (h : Buildable source options points bounds)
    (hbox : RootBox source points bounds box)
    (hstalls : source.Stalls options.leafSize box points) :
    build source options points bounds = .error (.nodesExhausted options.limit) := by
  refine h.ends.resolve_left ?_
  rintro ⟨tree, htree⟩
  have hbuilt := build_eq_ok htree
  obtain ⟨node, hgrows, -⟩ := hbuilt.grows
  exact hgrows.not_stalls (hbuilt.rootBox hbox ▸ hstalls)

omit [LawfulCoordinate N] in
/-- A tree is built if a subtree comes about that there is room for. -/
theorem build_of_grows (h : Buildable source options points bounds)
    (hbox : RootBox source points bounds box)
    (hgrows : Grows source options.leafSize 0 box points node order)
    (hroom : node.count ≤ options.limit) :
    build source options points bounds =
      .ok ⟨source.dims, options.leafSize, order.toArray, box, node.stored⟩ := by
  have hpos := node.count_pos
  have hlimit := options.limit_le
  rw [h.build_eq hbox, BuildOptions.requireRoom_eq, if_neg (by omega), Outcome.ok_bind,
    grow_of_grows hgrows (by omega) (by omega)]
  rfl

/-- Where no coordinate is above the range a tree is built if there is room for twice its points. -/
theorem exists_build (h : Buildable source options points bounds) (hnone : source.NoneAbove points)
    (hroom : 2 * points.length ≤ options.limit + 1) :
    ∃ tree, build source options points bounds = .ok tree := by
  obtain ⟨box, hbox⟩ := h.exists_rootBox
  obtain ⟨hdims, hencloses⟩ := h.rootBox_covers hbox
  obtain ⟨node, order, hgrows⟩ := exists_grows h.dims_ne_zero h.leafSize_ne_zero hdims h.complete
    hnone.not_stalls 0
  have hfew := (hgrows.count_le hencloses h.leafSize_ne_zero h.points_ne_nil).2
    (hnone.not_lopsided hdims)
  exact ⟨_, h.build_of_grows hbox hgrows (by omega)⟩

end Buildable

/-- A cut of at least two points in a box around them leaves some on the right, and none on the left
exactly if they slip. So building ends for want of room where it stalls. Otherwise it ends with
fewer nodes than twice the points, or two more if the points slip in a box known beforehand, unless
there is no room for these. Points slip or building stalls only if a coordinate is above the
range. -/
theorem build_ends (hdims : source.dims ≠ 0)
    (hcomplete : ∀ index < source.size, source.Complete index) :
    (∀ box points, (∀ index ∈ points, index < source.size) → 2 ≤ points.length →
      box.dims = source.dims → box.Encloses source points →
      ∃ cut, source.cut box points = .ok cut ∧ (cut.below ++ cut.above).Perm points ∧
        cut.above ≠ [] ∧ (cut.below = [] ↔ source.Slips box points)) ∧
    (∀ options points bounds, Buildable source options points bounds →
      ∃ box, RootBox source points bounds box ∧
        (source.Stalls options.leafSize box points →
          build source options points bounds = .error (.nodesExhausted options.limit)) ∧
        (¬ source.Stalls options.leafSize box points → ∃ nodes,
          nodes ≤ 2 * points.length + 1 ∧
          (bounds = none ∨ ¬ source.Slips box points → nodes + 1 ≤ 2 * points.length) ∧
          (options.limit < nodes →
            build source options points bounds = .error (.nodesExhausted options.limit)) ∧
          (nodes ≤ options.limit → ∃ tree, build source options points bounds = .ok tree ∧
            ∀ chunkLength, 0 < chunkLength → ∃ start table,
              (Table.empty chunkLength options.maxNodes).push .vacant = .ok start ∧
              steps (buildStep source options) nodes
                  ⟨start, points, [⟨0, 0, points.length, box⟩]⟩ =
                .ok ⟨table, tree.order.toList, []⟩ ∧
              table.size = nodes))) ∧
    ∀ points, source.NoneAbove points → ∀ box, box.dims = source.dims →
      ¬ source.Slips box points ∧ ∀ leafSize, ¬ source.Stalls leafSize box points := by
  refine ⟨?_, ?_, ?_⟩
  · intro box points hinside hmany hbox hencloses
    have hcomplete : ∀ index ∈ points, source.Complete index := fun index hindex =>
      hcomplete index (hinside index hindex)
    obtain ⟨cut, hcut⟩ := Source.exists_cut hdims hbox hcomplete
      (List.ne_nil_of_length_pos (by omega))
    exact ⟨cut, hcut, Source.cut_perm hcut, Source.cut_above hcut hencloses hmany,
      Source.cut_below_eq_nil_iff hcut hcomplete hmany⟩
  · intro options points bounds h
    obtain ⟨box, hbox⟩ := h.exists_rootBox
    refine ⟨box, hbox, ?_, ?_⟩
    · exact h.build_of_stalls hbox
    · intro hstalls
      have hleaf := h.leafSize_ne_zero
      obtain ⟨hboxDims, hencloses⟩ := h.rootBox_covers hbox
      obtain ⟨node, order, hgrows⟩ := exists_grows hdims hleaf hboxDims h.complete hstalls 0
      obtain ⟨hle, hless⟩ := hgrows.count_le hencloses hleaf h.points_ne_nil
      refine ⟨node.count, hle, ?_, ?_, ?_⟩
      · rintro (rfl | hslips)
        · obtain ⟨-, htight⟩ := hbox.resolve_right nofun
          exact (hgrows.count_of_tight htight hleaf h.points_ne_nil).1
        · exact hless fun hlopsided => hslips (.inl hlopsided)
      · intro hfull
        refine h.ends.resolve_left ?_
        rintro ⟨tree, htree⟩
        have hbuilt := build_eq_ok htree
        obtain ⟨node', hgrows', hnodes⟩ := hbuilt.exists_grows
        obtain ⟨rfl, -⟩ := hgrows.unique (hbuilt.rootBox hbox ▸ hgrows')
        exact Nat.not_le.mpr hfull (hnodes ▸ hbuilt.nodes_le_limit)
      · intro hroom
        have hbuild := h.build_of_grows hbox hgrows hroom
        refine ⟨_, hbuild, fun chunkLength hchunk => ?_⟩
        obtain ⟨start, table, hstart, hsteps, hsize, -, -⟩ := (build_eq_ok hbuild).rooted hchunk
        have hnodes : Tree.nodes ⟨source.dims, options.leafSize, order.toArray, box, node.stored⟩ =
            node.count := node.count_stored
        rw [hnodes] at hsteps hsize
        exact ⟨start, table, hstart, hsteps, hsize⟩
  · exact fun points hnone box hbox => ⟨hnone.not_slips hbox, fun leafSize => hnone.not_stalls⟩

/-- Points on one axis, the first unordered and the second below the range. -/
def oddSource : Source Binary64 := .ofRows #[#[.undefined], #[.negInfinity], #[1]]

/-- They are parted, and a tree over them is built with one point to each leaf. -/
theorem build_oddSource : oddSource.dims ≠ 0 ∧
    (∀ index < oddSource.size, oddSource.Complete index) ∧
    (Box.Encloses ⟨[⟨.negInfinity, .infinity⟩]⟩ oddSource [0, 1, 2]) ∧
    Buildable oddSource ⟨1, none⟩ [0, 1, 2] none ∧ oddSource.NoneAbove [0, 1, 2] ∧
    (∃ cut, oddSource.cut ⟨[⟨.negInfinity, .infinity⟩]⟩ [0, 1, 2] = .ok cut ∧
      cut.below ≠ [] ∧ cut.above ≠ []) ∧
    ∃ tree, build oddSource ⟨1, none⟩ [0, 1, 2] none = .ok tree := by
  have hdims : oddSource.dims ≠ 0 := by decide
  have hcomplete : ∀ index < oddSource.size, oddSource.Complete index := by
    unfold Source.Complete
    decide
  have hinside : ∀ index ∈ [0, 1, 2], index < oddSource.size := by decide
  have hencloses : Box.Encloses ⟨[⟨.negInfinity, .infinity⟩]⟩ oddSource [0, 1, 2] := by
    intro index hindex axis side v hside hv hself
    have haxis : axis < 1 := (List.getElem?_eq_some_iff.mp hside).1
    interval_cases axis
    obtain rfl := Option.some.inj hside
    unfold Side.Holds
    fin_cases hindex <;> obtain rfl := Option.some.inj hv <;> revert hself <;> decide
  have hbuildable : Buildable oddSource ⟨1, none⟩ [0, 1, 2] none :=
    ⟨rfl, hdims, by decide, by decide, fun index hindex => hcomplete index (hinside index hindex),
      nofun⟩
  have hnone : oddSource.NoneAbove [0, 1, 2] := by
    intro index hindex axis haxis v hv
    have haxis : axis < 1 := haxis
    interval_cases axis
    fin_cases hindex <;> obtain rfl := Option.some.inj hv <;> decide
  obtain ⟨hcuts, hbuilds, hends⟩ := build_ends hdims hcomplete
  refine ⟨hdims, hcomplete, hencloses, hbuildable, hnone, ?_, ?_⟩
  · obtain ⟨cut, hcut, -, habove, hbelow⟩ := hcuts _ _ hinside (by decide) rfl hencloses
    exact ⟨cut, hcut, mt hbelow.mp (hends _ hnone _ rfl).1, habove⟩
  · obtain ⟨box, hbox, -, hbuild⟩ := hbuilds _ _ _ hbuildable
    obtain ⟨nodes, -, hnodes, -, hroom⟩ :=
      hbuild ((hends _ hnone box (hbuildable.rootBox_covers hbox).1).2 _)
    have hfew : nodes + 1 ≤ 6 := hnodes (.inl rfl)
    have hlimit : 6 ≤ BuildOptions.limit ⟨1, none⟩ := by decide
    obtain ⟨tree, htree, -⟩ := hroom (by omega)
    exact ⟨tree, htree⟩

/-- Two points that coincide above the range. -/
def farSource : Source Binary64 := .ofRows #[#[.infinity], #[.infinity]]

/-- Not every cut parts its points: they slip in their tight box, so that no tree is built with one
to each leaf, and a box known beforehand can add two nodes. -/
theorem farSource_slips :
    farSource.boxAround [0, 1] = .ok ⟨[⟨.maxFinite, .infinity⟩]⟩ ∧
    (∃ cut, farSource.cut ⟨[⟨.maxFinite, .infinity⟩]⟩ [0, 1] = .ok cut ∧ cut.below = []) ∧
    ofSource farSource ⟨1, none⟩ = .error (.nodesExhausted maxWord32) ∧
    skewSource.Covered ∧ ofSource skewSource ⟨1, none⟩ = .ok skewTree ∧ skewTree.nodes = 5 := by
  have htight : farSource.boxAround [0, 1] = .ok ⟨[⟨.maxFinite, .infinity⟩]⟩ := by decide +kernel
  have hcomplete : ∀ index ∈ [0, 1], farSource.Complete index := by
    unfold Source.Complete
    decide
  have hlopsided : farSource.Lopsided ⟨[⟨.maxFinite, .infinity⟩]⟩ [0, 1] := by
    have hwidest : Box.widest ⟨[⟨Binary64.maxFinite, .infinity⟩]⟩ = 0 := by decide +kernel
    unfold Source.Lopsided Source.Beyond
    rw [hwidest]
    refine ⟨_, rfl, by decide, ?_, 0, by decide, _, rfl, by decide⟩
    intro index hindex v hv
    fin_cases hindex <;> obtain rfl := Option.some.inj hv <;> decide
  have hstalls : farSource.Stalls 1 ⟨[⟨.maxFinite, .infinity⟩]⟩ [0, 1] :=
    .atOnce (by decide) htight hlopsided
  have hbuildable : Buildable farSource ⟨1, none⟩ [0, 1] none :=
    ⟨rfl, by decide, by decide, by decide, hcomplete, nofun⟩
  refine ⟨htight, ?_, hbuildable.build_of_stalls (.inl ⟨rfl, htight⟩) hstalls, ?_, ?_, rfl⟩
  · obtain ⟨cut, hcut⟩ : ∃ cut, farSource.cut ⟨[⟨.maxFinite, .infinity⟩]⟩ [0, 1] = .ok cut :=
      Source.exists_cut (by decide) rfl hcomplete (by decide)
    exact ⟨cut, hcut, (hlopsided.cut hcut).1⟩
  · intro box hbox index hindex
    obtain rfl := Option.some.inj hbox
    have hindex : index < 2 := hindex
    interval_cases index <;> decide +kernel
  · decide +kernel

end Tree

end Proximity
