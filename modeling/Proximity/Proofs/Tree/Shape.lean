import Mathlib
import Proximity.Proofs.Tree.RoundTrip
import Proximity.Proofs.Walk

/-!
# The shape of built trees

Over finite points every cut leaves both parts some points, and none on the left that reaches its
value, except where all points coincide and are halved. So the leaves are ranges that follow one
another from the first point to the last, none of them empty, and there are fewer branches than
leaves by one. In the table of the tree every place but the first is named by one branch. Only over
more points than a word can count does the last leaf end elsewhere.
-/

namespace Proximity

variable {N : Type}

/-- Whether ranges follow one another from one place to another, none of them empty and none longer
than some limit. -/
def Abut (limit : Nat) : (first : Nat) → List (Nat × Nat) → (last : Nat) → Prop
  | first, [], last => first = last
  | first, range :: ranges, last =>
    range.1 = first ∧ first < range.2 ∧ range.2 - first ≤ limit ∧ Abut limit range.2 ranges last

namespace Abut

variable {limit first middle last : Nat} {ranges more : List (Nat × Nat)}

theorem append (h : Abut limit first ranges middle) (hmore : Abut limit middle more last) :
    Abut limit first (ranges ++ more) last := by
  induction ranges generalizing first with
  | nil =>
    obtain rfl : first = middle := h
    exact hmore
  | cons range ranges ih =>
    obtain ⟨hfirst, hlt, hlimit, hrest⟩ := h
    exact ⟨hfirst, hlt, hlimit, ih hrest⟩

/-- Ranges that are not empty are no more than the places that they take. -/
theorem length_le (h : Abut limit first ranges last) : first + ranges.length ≤ last := by
  induction ranges generalizing first with
  | nil => exact Nat.le_of_eq h
  | cons range ranges ih =>
    obtain ⟨-, hlt, -, hrest⟩ := h
    have hle := ih hrest
    rw [List.length_cons]
    omega

/-- Each of the ranges has places, and none beyond the last. -/
theorem lt_and_le (h : Abut limit first ranges last) :
    ∀ range ∈ ranges, range.1 < range.2 ∧ range.2 ≤ last := by
  induction ranges generalizing first with
  | nil => exact nofun
  | cons range ranges ih =>
    obtain ⟨rfl, hlt, -, hrest⟩ := h
    have hle := hrest.length_le
    exact List.forall_mem_cons.mpr ⟨⟨hlt, by omega⟩, ih hrest⟩

/-- One of the ranges ends at the last place. -/
theorem exists_last (h : Abut limit first ranges last) (hlt : first < last) :
    ∃ range ∈ ranges, range.2 = last := by
  induction ranges generalizing first with
  | nil => exact absurd h hlt.ne
  | cons range ranges ih =>
    obtain ⟨-, -, -, hrest⟩ := h
    rcases Nat.eq_or_lt_of_le ((Nat.le_add_right _ _).trans hrest.length_le) with heq | hmore
    · exact ⟨range, List.mem_cons_self, heq⟩
    · obtain ⟨found, hfound, hlast⟩ := ih hrest hmore
      exact ⟨found, List.mem_cons_of_mem _ hfound, hlast⟩

end Abut

namespace Node

/-- The ranges of the leaves, from the left. -/
def leaves : Node N → List (Nat × Nat)
  | .leaf first last => [(first, last)]
  | .branch _ _ left right => left.leaves ++ right.leaves

/-- Leaves are kept with both ends as words. -/
theorem leaves_stored (node : Node N) : node.stored.leaves =
    node.leaves.map fun range => (toWord32 range.1, toWord32 range.2) := by
  induction node with
  | leaf first last => rfl
  | branch axis split left right ihl ihr =>
    rw [stored, leaves, leaves, ihl, ihr, List.map_append]

/-- There is one branch fewer than there are leaves. -/
theorem count_eq (node : Node N) : node.count + 1 = 2 * node.leaves.length := by
  induction node with
  | leaf first last => rfl
  | branch axis split left right ihl ihr =>
    rw [count, leaves, List.length_append]
    omega

end Node

section Cuts

variable [Coordinate N] {source : Source N} {points : List Nat} {box : Box N} {cut : Cut N}

/-- Whether points have equal coordinates on every axis. -/
def Source.Coincide (source : Source N) (points : List Nat) : Prop :=
  ∀ first ∈ points, ∀ second ∈ points, ∀ axis < source.dims, ∀ v w,
    source.coordinate? first axis = some v → source.coordinate? second axis = some w → v ≤ w

/-- Whether the points on the left of every branch are below its split, unless all points below the
branch coincide. -/
def Node.Strict (source : Source N) (order : Array Nat) : Node N → Prop
  | .leaf .. => True
  | .branch axis split left right =>
    ((∀ index ∈ left.points order, ∃ v, source.coordinate? index axis = some v ∧ v < split) ∨
      source.Coincide (left.points order ++ right.points order)) ∧
      left.Strict source order ∧ right.Strict source order

variable [LawfulCoordinate N]

/-- A cut puts points on the left that are below its value, or they all coincide. -/
theorem Source.cut_strict (hfinite : ∀ index ∈ points, source.FiniteAt index)
    (h : source.cut box points = .ok cut) :
    (∀ index ∈ cut.below, ∃ v, source.coordinate? index cut.axis = some v ∧ v < cut.split) ∨
      source.Coincide points := by
  rcases cut_eq_ok h with ⟨rest, hcut⟩ | ⟨rest, tight, last, hnone, htight, hagain⟩
  · exact .inl (cutLongest_separates hcut).1.below
  rcases hagain with hcut | ⟨first, v, hcut, -, -, -⟩
  · exact .inl (cutLongest_separates hcut).1.below
  · right
    have hperm := cutLongest_perm hnone
    have hall : ∀ index ∈ rest, source.FiniteAt index := fun index hindex =>
      hfinite index (hperm.mem_iff.mp hindex)
    intro i hi j hj axis haxis v w hv hw
    exact coincide_of_uncut hall htight hcut haxis (hperm.mem_iff.mpr hi) (hperm.mem_iff.mpr hj)
      hv hw

/-- No box around finite points is lopsided. -/
theorem Source.not_lopsided_of_finite (hbox : box.dims = source.dims)
    (hfinite : ∀ index ∈ points, source.FiniteAt index) : ¬ source.Lopsided box points := by
  rintro ⟨side, hside, -, -, index, hindex, v, hv, habove⟩
  have haxis : box.widest < source.dims := hbox ▸ (List.getElem?_eq_some_iff.mp hside).1
  obtain ⟨w, hw, -, hle⟩ := hfinite index hindex box.widest haxis
  obtain rfl := Option.some.inj (hv.symm.trans hw)
  exact Comparison.not_lt hle habove

/-- A cut of finite points leaves both parts some. -/
theorem Source.cut_ne_nil_of_finite (hbox : box.dims = source.dims)
    (hfinite : ∀ index ∈ points, source.FiniteAt index) (hencloses : box.Encloses source points)
    (hmany : 2 ≤ points.length) (h : source.cut box points = .ok cut) :
    cut.below ≠ [] ∧ cut.above ≠ [] := by
  refine ⟨fun hbelow => ?_, cut_above h hencloses hmany⟩
  rcases cut_below h hmany hbelow with hlopsided | ⟨rest, tight, hperm, htight, hlopsided⟩
  · exact not_lopsided_of_finite hbox hfinite hlopsided
  · refine not_lopsided_of_finite (boxAround_eq_ok htight).1 ?_ hlopsided
    exact fun index hindex => hfinite index (hperm.mem_iff.mp hindex)

end Cuts

namespace Grows

variable [Coordinate N] [LawfulCoordinate N] {source : Source N} {leafSize first : Nat}
variable {box : Box N} {points order : List Nat} {node : Node N}

/-- The leaves over finite points follow one another through their range. -/
theorem abut (h : Grows source leafSize first box points node order) (hleaf : leafSize ≠ 0)
    (hbox : box.dims = source.dims) (hencloses : box.Encloses source points)
    (hfinite : ∀ index ∈ points, source.FiniteAt index) (hpoints : points ≠ []) :
    Abut leafSize first node.leaves (first + points.length) := by
  induction h with
  | @leaf first box points hfits =>
    have hpos := List.length_pos_of_ne_nil hpoints
    rw [Node.leaves]
    refine ⟨rfl, ?_, ?_, rfl⟩
    · show first < first + points.length
      omega
    · show first + points.length - first ≤ leafSize
      omega
  | @branch first box points cut lower upper left right leftOrder rightOrder hmany hcut hlower
      hupper hleft hright ihl ihr =>
    obtain ⟨hbelow, habove⟩ :=
      Source.cut_ne_nil_of_finite hbox hfinite hencloses (by omega) hcut
    obtain ⟨hfiniteBelow, hfiniteAbove⟩ := Source.cut_finite hfinite hcut
    have hlength := (Source.cut_perm hcut).length_eq
    rw [List.length_append] at hlength
    rw [Node.leaves, ← hlength, ← Nat.add_assoc]
    have hl := ihl (Source.boxAround_eq_ok hlower).1 (Source.boxAround_encloses hlower)
      hfiniteBelow hbelow
    have hr := ihr (Source.boxAround_eq_ok hupper).1 (Source.boxAround_encloses hupper)
      hfiniteAbove habove
    exact hl.append hr

/-- The left side of every branch over finite points is below its split, or all points below the
branch coincide. -/
theorem strict (h : Grows source leafSize first box points node order)
    (hfinite : ∀ index ∈ points, source.FiniteAt index) {all : Array Nat}
    {before after : List Nat} (hall : all.toList = before ++ order ++ after)
    (hfirst : before.length = first) : node.Strict source all := by
  induction h generalizing before after with
  | leaf _ => trivial
  | @branch first box points cut lower upper left right leftOrder rightOrder hfits hcut hlower
      hupper hleft hright ihl ihr =>
    have hperm := Source.cut_perm hcut
    obtain ⟨hall', hall''⟩ := append_around hall
    have hfirst' : (before ++ leftOrder).length = first + cut.below.length := by
      rw [List.length_append, hfirst, hleft.perm.length_eq]
    obtain ⟨hfiniteBelow, hfiniteAbove⟩ := Source.cut_finite hfinite hcut
    refine ⟨?_, ihl hfiniteBelow hall' hfirst, ihr hfiniteAbove hall'' hfirst'⟩
    · rw [hleft.points_eq hall' hfirst, hright.points_eq hall'' hfirst']
      refine (Source.cut_strict hfinite hcut).imp (fun hbelow index hindex => ?_) fun hall => ?_
      · exact hbelow index (hleft.perm.mem_iff.mp hindex)
      · have hmem {index : Nat} (hindex : index ∈ leftOrder ++ rightOrder) : index ∈ points :=
          hperm.mem_iff.mp ((hleft.perm.append hright.perm).mem_iff.mp hindex)
        exact fun i hi j hj => hall i (hmem hi) j (hmem hj)

end Grows

section Places

/-- The places that the cell at a place names. -/
def Table.children (table : Table (Cell N)) (place : Nat) : List Nat :=
  match table.get? place with
  | some (.branch _ _ left right) => [left, right]
  | some (.leaf ..) | none => []

/-- Whether every place but the first is named by exactly one other, and once. -/
structure Table.Rooted (table : Table (Cell N)) : Prop where
  parent : ∀ child, 0 < child → child < table.size →
    ∃! parent, parent < table.size ∧ child ∈ table.children parent
  children : ∀ parent < table.size, (table.children parent).Nodup ∧
    ∀ child ∈ table.children parent, 0 < child ∧ child < table.size

/-- The place of a node and those named at the places from it on are these places. -/
theorem Node.Occupies.children_perm {node : Node N} {table : Table (Cell N)} {place : Nat}
    {places : List Nat} (h : node.Occupies table place places) :
    (place :: places.flatMap table.children).Perm places := by
  induction h with
  | leaf hcell =>
    rw [List.flatMap_singleton, Table.children, hcell]
  | @branch axis split left right place leftPlace rightPlace leftPlaces rightPlaces hcell _ _ ihl
      ihr =>
    have hchildren : table.children place = [leftPlace, rightPlace] := by
      rw [Table.children, hcell]
    rw [List.flatMap_cons, List.flatMap_append, hchildren]
    have hswap : (leftPlace :: rightPlace ::
          (leftPlaces.flatMap table.children ++ rightPlaces.flatMap table.children)).Perm
        ((leftPlace :: leftPlaces.flatMap table.children) ++
          rightPlace :: rightPlaces.flatMap table.children) :=
      .cons _ List.perm_middle.symm
    exact .cons place (hswap.trans (ihl.append ihr))

/-- A node that stands at all places of a table is the root of its first place. -/
theorem Node.Occupies.rooted {node : Node N} {table : Table (Cell N)} {places : List Nat}
    (h : node.Occupies table 0 places) (hperm : places.Perm (List.range table.size)) :
    table.Rooted := by
  have hall : (0 :: (List.range table.size).flatMap table.children).Perm
      (List.range table.size) :=
    (((hperm.flatMap_right table.children).symm.cons 0).trans h.children_perm).trans hperm
  obtain ⟨hzero, hnodup⟩ := List.nodup_cons.mp (hall.nodup_iff.mpr List.nodup_range)
  obtain ⟨hown, hapart⟩ := List.nodup_flatMap.mp hnodup
  have hsymm : Std.Symm (Function.onFun List.Disjoint table.children) := ⟨fun _ _ h => h.symm⟩
  have hmem {parent child : Nat} (hparent : parent < table.size)
      (hchild : child ∈ table.children parent) :
      child ∈ (List.range table.size).flatMap table.children :=
    List.mem_flatMap.mpr ⟨parent, List.mem_range.mpr hparent, hchild⟩
  constructor
  case parent =>
    intro child hpos hlt
    have hchild := (List.mem_cons.mp (hall.mem_iff.mpr (List.mem_range.mpr hlt))).resolve_left
      hpos.ne'
    obtain ⟨parent, hparent, hnames⟩ := List.mem_flatMap.mp hchild
    refine ⟨parent, ⟨List.mem_range.mp hparent, hnames⟩, ?_⟩
    rintro other ⟨hother, hnames'⟩
    by_contra hne
    exact hapart.forall (List.mem_range.mpr hother) hparent hne hnames' hnames
  case children =>
    intro parent hparent
    refine ⟨hown parent (List.mem_range.mpr hparent), fun child hchild => ⟨?_, ?_⟩⟩
    · refine Nat.pos_of_ne_zero ?_
      rintro rfl
      exact hzero (hmem hparent hchild)
    · exact List.mem_range.mp (hall.mem_iff.mp (List.mem_cons_of_mem _ (hmem hparent hchild)))

end Places

namespace Tree

variable [Coordinate N] [LawfulCoordinate N] {source : Source N} {options : BuildOptions}
variable {points : List Nat} {bounds : Option (Box N)} {tree : Tree N}

/-- The loop that builds a tree leaves a table in which every place but that of the root has one
parent. -/
theorem Built.rooted (h : Built source options points bounds tree) {chunkLength : Nat}
    (hchunk : 0 < chunkLength) : ∃ start table,
      (Table.empty chunkLength options.maxNodes).push .vacant = .ok start ∧
      steps (buildStep source options) tree.nodes
          ⟨start, points, [⟨0, 0, points.length, tree.box⟩]⟩ =
        .ok ⟨table, tree.order.toList, []⟩ ∧
      table.size = tree.nodes ∧ tree.root.Stands table 0 ∧ table.Rooted := by
  obtain ⟨start, table, hstart, htable, hsteps⟩ := h.steps_buildStep chunkLength
  obtain ⟨hsize, places, hat, hperm⟩ := occupies_table hchunk htable
  exact ⟨start, table, hstart, hsteps, hsize, hat.stands, hat.rooted (hsize ▸ hperm)⟩

omit [LawfulCoordinate N] in
/-- The leaves of a tree as they are kept follow one another to the last point only if a word can
count the points. -/
theorem Built.length_le_of_abut (h : Built source options points bounds tree)
    (habut : Abut options.leafSize 0 tree.root.leaves points.length) :
    points.length ≤ maxWord32 := by
  obtain ⟨node, -, hroot⟩ := h.grows
  obtain ⟨range, hrange, hlast⟩ := habut.exists_last (List.length_pos_of_ne_nil h.points_ne_nil)
  rw [hroot, Node.leaves_stored] at hrange
  obtain ⟨meant, -, rfl⟩ := List.mem_map.mp hrange
  exact hlast ▸ toWord32_le meant.2

/-- A tree over finite points arranges them. It keeps, with the ends of its leaves as words, a node
whose leaves follow one another from the first point to the last, none of them empty or too large.
On the axis of a branch no point lies beyond its split, and those on the left lie below it unless
all points below the branch coincide. The node has one branch fewer than leaves, so fewer nodes than
twice the points, and each of them but the root has one parent. It is kept as it is exactly if a
word can count the points; otherwise the leaves as they are kept do not follow one another. -/
theorem build_shape (hfinite : source.Finite) (hinside : ∀ index ∈ points, index < source.size)
    (hcover : ∀ box, bounds = some box →
      ∀ index ∈ points, box.contains (source.coordinates index) = true)
    (h : build source options points bounds = .ok tree) :
    tree.order.toList.Perm points ∧
    (∃ node : Node N, tree.root = node.stored ∧
      (points.length ≤ maxWord32 → tree.root = node) ∧
      Abut options.leafSize 0 node.leaves points.length ∧
      node.Ordered source tree.order ∧ node.Strict source tree.order) ∧
    (Abut options.leafSize 0 tree.root.leaves points.length ↔ points.length ≤ maxWord32) ∧
    tree.nodes + 1 = 2 * tree.root.leaves.length ∧ tree.nodes + 1 ≤ 2 * points.length ∧
    ∀ chunkLength, 0 < chunkLength → ∃ start table,
      (Table.empty chunkLength options.maxNodes).push .vacant = .ok start ∧
      steps (buildStep source options) tree.nodes
          ⟨start, points, [⟨0, 0, points.length, tree.box⟩]⟩ =
        .ok ⟨table, tree.order.toList, []⟩ ∧
      table.size = tree.nodes ∧ tree.root.Stands table 0 ∧ table.Rooted := by
  have hbuilt := build_eq_ok h
  have hpoints : ∀ index ∈ points, source.FiniteAt index := fun index hindex =>
    hfinite index (hinside index hindex)
  have hencloses : tree.box.Encloses source points := hbuilt.encloses fun box hbox =>
    Source.encloses_of_contains (fun index hindex => (hpoints index hindex).complete)
      (hcover box hbox)
  have hall : tree.order.toList = [] ++ tree.order.toList ++ [] := by
    rw [List.nil_append, List.append_nil]
  obtain ⟨node, hgrows, hroot⟩ := hbuilt.grows
  have hwords (hwords : points.length ≤ maxWord32) : tree.root = node := by
    rw [hroot, (hgrows.inRange (Nat.zero_add _).le).stored_eq hwords]
  have habut := hgrows.abut hbuilt.leafSize_ne_zero hbuilt.box_dims hencloses hpoints
    hbuilt.points_ne_nil
  rw [Nat.zero_add] at habut
  have hcount : tree.nodes + 1 = 2 * tree.root.leaves.length := tree.root.count_eq
  have hlength : tree.root.leaves.length = node.leaves.length := by
    rw [hroot, Node.leaves_stored, List.length_map]
  have hleaves := habut.length_le
  have hordered := (hbuilt.searchable_of_grows hgrows hpoints hcover).ordered
  exact ⟨hbuilt.order_perm, ⟨node, hroot, hwords, habut, hordered, hgrows.strict hpoints hall rfl⟩,
    ⟨hbuilt.length_le_of_abut, fun hfits => hwords hfits ▸ habut⟩, hcount, by omega,
    fun _ hchunk => hbuilt.rooted hchunk⟩

end Tree

/-- The tree over three of four bytes in a box that holds all bytes, one to each leaf. -/
def singlesTree : Tree UInt8 :=
  ⟨1, 1, #[3, 0, 2], ⟨[⟨0, 255⟩]⟩,
    .branch 0 7 (.branch 0 2 (.leaf 0 1) (.leaf 1 2)) (.leaf 2 3)⟩

/-- Its leaves follow one another from the first point to the last. -/
theorem build_shape_singlesTree :
    byteSource.Finite ∧ (∀ index ∈ [2, 0, 3], index < byteSource.size) ∧
    (∀ box : Box UInt8, some ⟨[⟨0, 255⟩]⟩ = some box →
      ∀ index ∈ [2, 0, 3], box.contains (byteSource.coordinates index) = true) ∧
    Tree.build byteSource ⟨1, none⟩ [2, 0, 3] (some ⟨[⟨0, 255⟩]⟩) = .ok singlesTree ∧
    Abut 1 0 [(0, 1), (1, 2), (2, 3)] 3 ∧ singlesTree.root.Strict byteSource singlesTree.order := by
  have hinside : ∀ index ∈ [2, 0, 3], index < byteSource.size := by decide
  have hcover : ∀ box : Box UInt8, some ⟨[⟨0, 255⟩]⟩ = some box →
      ∀ index ∈ [2, 0, 3], box.contains (byteSource.coordinates index) = true := by
    intro box hbox
    obtain rfl := Option.some.inj hbox
    decide
  have hbuild : Tree.build byteSource ⟨1, none⟩ [2, 0, 3] (some ⟨[⟨0, 255⟩]⟩) =
      .ok singlesTree := by decide +kernel
  have hfew : [2, 0, 3].length ≤ maxWord32 := by decide
  obtain ⟨-, ⟨node, -, hroot, habut, -, hstrict⟩, -⟩ :=
    Tree.build_shape finite_byteSource hinside hcover hbuild
  rw [← hroot hfew] at habut hstrict
  exact ⟨finite_byteSource, hinside, hcover, hbuild, habut, hstrict⟩

end Proximity
