import Mathlib
import Proximity.Proofs.Index

/-!
# Trees with more points than a word can count

A tree may hold one point for each word, and that is one point more than a word can count. The end
of its last leaf is then kept as zero, and a search that opens this leaf fails. Otherwise it ends as
it would with the end that was meant, and so does every search of a smaller tree.
-/

namespace Proximity

variable {N D σ α β : Type}

namespace Outcome

/-- Whether a run ends as the one that was meant, or at a leaf whose end is lost. -/
def UpToLoss (run meant : Except Error α) : Prop :=
  run = meant ∨ ∃ first, run = .error (.missingPoints first 0)

namespace UpToLoss

/-- A run agrees with itself. -/
theorem refl (run : Except Error α) : UpToLoss run run := .inl rfl

/-- What follows a step may be lost there or later. -/
theorem bind {run meant : Except Error α} {f g : α → Except Error β} (h : UpToLoss run meant)
    (hnext : ∀ a, UpToLoss (f a) (g a)) : UpToLoss (run >>= f) (meant >>= g) := by
  rcases h with rfl | ⟨first, rfl⟩
  · cases run with
    | ok a => exact hnext a
    | error e => exact .refl _
  · exact .inr ⟨first, rfl⟩

/-- A run that comes to its end ends as it was meant. -/
theorem of_ok {a : α} {meant : Except Error α} (h : UpToLoss (.ok a) meant) : meant = .ok a := by
  rcases h with heq | ⟨first, hlost⟩
  · exact heq.symm
  · cases hlost

end UpToLoss

end Outcome

/-- Whether no leaf has more points than a word can count. -/
def Node.Narrow : Node N → Prop
  | .leaf first last => last - first ≤ maxWord32
  | .branch _ _ left right => left.Narrow ∧ right.Narrow

/-- No leaf of a subtree has more points than it may have. -/
theorem Grows.narrow [Coordinate N] {source : Source N} {leafSize first : Nat} {box : Box N}
    {points order : List Nat} {node : Node N}
    (h : Grows source leafSize first box points node order) (hleaf : leafSize ≤ maxWord32) :
    node.Narrow := by
  induction h with
  | @leaf first box points hfits =>
    rw [Node.Narrow, Nat.add_sub_cancel_left]
    exact hfits.trans hleaf
  | branch _ _ _ _ _ _ ihl ihr => exact ⟨ihl, ihr⟩

namespace Tree

/-- A tree as it is kept, with the ends of its leaves as words. -/
def stored (tree : Tree N) : Tree N := { tree with root := tree.root.stored }

/-- The points of a leaf are those of the range that was meant, or its end is lost. -/
theorem points_toWord32 (tree : Tree N) {first last : Nat} (hrange : first ≤ last)
    (hlast : last ≤ tree.size) (hsize : tree.size ≤ maxWord32 + 1)
    (hnarrow : last - first ≤ maxWord32) :
    Outcome.UpToLoss (tree.points (toWord32 first) (toWord32 last)) (tree.points first last) := by
  rcases Nat.lt_or_ge maxWord32 last with hover | hfits
  · obtain rfl : last = maxWord32 + 1 := by omega
    rcases Nat.lt_or_ge maxWord32 first with hempty | hsome
    · -- An empty range at the very end is kept as the empty one at the beginning.
      obtain rfl : first = maxWord32 + 1 := by omega
      left
      rw [toWord32_succ, points, points, if_pos ⟨le_rfl, Nat.zero_le _⟩, if_pos ⟨le_rfl, hlast⟩]
      simp
    · right
      rw [toWord32_succ, toWord32_of_le hsome]
      exact ⟨first, if_neg (by omega)⟩
  · rw [toWord32_of_le hfits, toWord32_of_le (hrange.trans hfits)]
    exact .refl _

/-- Whether a tree can be searched as it is meant: its points are different words, so there is at
most one more of them than a word can count, and none of its leaves has more than that. -/
structure Meant [Coordinate N] (source : Source N) (tree : Tree N) : Prop where
  searchable : tree.Searchable source
  nodup : tree.order.toList.Nodup
  words : ∀ index ∈ tree.order, index ≤ maxWord32
  narrow : tree.root.Narrow

namespace Meant

variable [Coordinate N] {source : Source N} {tree : Tree N}

/-- A tree as it was meant lists every index at most once, so it has no more points than there are
indices. -/
theorem size_le (h : tree.Meant source) : tree.size ≤ maxWord32 + 1 := by
  have hsub : tree.order.toList ⊆ List.range (maxWord32 + 1) := by
    intro index hindex
    exact List.mem_range.mpr (Nat.lt_succ_of_le (h.words index (Array.mem_toList_iff.mp hindex)))
  have hle := (h.nodup.subperm hsub).length_le
  rwa [List.length_range] at hle

/-- A tree with no more points than a word can count is kept as it is meant. -/
theorem stored_eq (h : tree.Meant source) (hsize : tree.size ≤ maxWord32) : tree.stored = tree := by
  rw [stored, h.searchable.inRange.stored_eq hsize]

end Meant

/-- What is built of different words over finite points, in a box that covers them, keeps a tree
that is meant. -/
theorem Built.exists_meant [Coordinate N] [LawfulCoordinate N] {source : Source N}
    {options : BuildOptions} {points : List Nat} {bounds : Option (Box N)} {tree : Tree N}
    (h : Built source options points bounds tree)
    (hfinite : ∀ index ∈ points, source.FiniteAt index)
    (hcover : ∀ box, bounds = some box →
      ∀ index ∈ points, box.contains (source.coordinates index) = true)
    (hnodup : points.Nodup) (hwords : ∀ index ∈ points, index ≤ maxWord32) :
    ∃ meant : Tree N, tree = meant.stored ∧ meant.Meant source := by
  obtain ⟨node, hgrows, hroot⟩ := h.grows
  refine ⟨{ tree with root := node }, ?_, h.searchable_of_grows hgrows hfinite hcover,
    h.order_perm.nodup_iff.mpr hnodup, ?_, hgrows.narrow h.leafSize_le⟩
  · rw [stored, ← hroot]
  · intro index hindex
    exact hwords index (h.order_perm.mem_iff.mp (Array.mem_toList_iff.mpr hindex))

end Tree

namespace Inquiry

variable [LT N] [DecidableLT N] [Scalar D] [Collector σ D]

/-- The same inquiry of the tree as it is kept. -/
def stored (inquiry : Inquiry N D) : Inquiry N D := { inquiry with tree := inquiry.tree.stored }

variable (inquiry : Inquiry N D)

omit [LT N] [DecidableLT N] in
@[simp] theorem passes_stored (nearest : D) (state : σ) :
    inquiry.stored.passes nearest state = inquiry.passes nearest state := rfl

omit [LT N] [DecidableLT N] in
@[simp] theorem reaches_stored (nearest : D) (state : σ) :
    inquiry.stored.reaches nearest state = inquiry.reaches nearest state := rfl

omit [LT N] [DecidableLT N] in
/-- The same points are offered, whatever is kept of the tree. -/
theorem offerPoints_stored (points : List Nat) (state : σ) :
    inquiry.stored.offerPoints points state = inquiry.offerPoints points state := by
  induction points generalizing state with
  | nil => rfl
  | cons index points ih =>
    simp only [offerPoints, ih]
    rfl

omit [LT N] [DecidableLT N] in
/-- A leaf is opened as it was meant, or its end is lost. -/
theorem openLeaf_stored {first last : Nat} (hrange : first ≤ last)
    (hlast : last ≤ inquiry.tree.size) (hsize : inquiry.tree.size ≤ maxWord32 + 1)
    (hnarrow : last - first ≤ maxWord32) (progress : Progress σ) :
    Outcome.UpToLoss (inquiry.stored.openLeaf (toWord32 first) (toWord32 last) progress)
      (inquiry.openLeaf first last progress) := by
  unfold openLeaf
  split
  · exact .refl _
  · refine (inquiry.tree.points_toWord32 hrange hlast hsize hnarrow).bind fun points => ?_
    rw [offerPoints_stored]
    exact .refl _

/-- A search of a subtree as it is kept ends as it was meant, or at a leaf whose end is lost. -/
theorem visit_stored (hsize : inquiry.tree.size ≤ maxWord32 + 1) (node : Node N)
    (hrange : node.InRange inquiry.tree.size) (hnarrow : node.Narrow) (gaps : List D)
    (nearest : D) (progress : Progress σ) :
    Outcome.UpToLoss (inquiry.stored.visit node.stored gaps nearest progress)
      (inquiry.visit node gaps nearest progress) := by
  induction node generalizing gaps nearest progress with
  | leaf first last =>
    rw [Node.stored, visit, visit, passes_stored]
    split
    · exact .refl _
    · exact inquiry.openLeaf_stored hrange.1 hrange.2 hsize hnarrow progress
  | branch axis split left right ihl ihr =>
    have hleft := ihl hrange.1 hnarrow.1
    have hright := ihr hrange.2 hnarrow.2
    rw [Node.stored, visit, visit, passes_stored]
    split
    · exact .refl _
    have hquery : inquiry.stored.query[axis]? = inquiry.query[axis]? := rfl
    have hside : inquiry.stored.tree.box.sides[axis]? = inquiry.tree.box.sides[axis]? := rfl
    have hmetric : inquiry.stored.metric = inquiry.metric := rfl
    rw [hquery, hside, hmetric]
    rcases inquiry.query[axis]? with - | v
    · exact .refl _
    rcases inquiry.tree.box.sides[axis]? with - | side
    · exact .refl _
    dsimp only
    split
    · refine (hleft gaps nearest progress).bind fun next => ?_
      rw [reaches_stored]
      split
      · exact hright _ _ next
      · exact .refl _
    · refine (hright gaps nearest progress).bind fun next => ?_
      rw [reaches_stored]
      split
      · exact hleft _ _ next
      · exact .refl _

/-- A search of a tree as it is kept ends as it was meant, or at a leaf whose end is lost. -/
theorem run_stored {N : Type} [Coordinate N] (inquiry : Inquiry N D)
    (h : inquiry.tree.Meant inquiry.source) (progress : Progress σ) :
    Outcome.UpToLoss (inquiry.stored.run progress) (inquiry.run progress) :=
  inquiry.visit_stored h.size_le inquiry.tree.root h.searchable.inRange h.narrow _ _ progress

end Inquiry

/-- A part of an index as its tree is kept. -/
def Part.stored (part : Part N) : Part N := { part with tree := part.tree.stored }

namespace Index

/-- An index as its trees are kept. -/
def stored (index : Index N D) : Index N D := { index with parts := index.parts.map Part.stored }

/-- Whether a tree of an index has more points than a word can count. -/
def Overfull (index : Index N D) : Prop := ∃ part ∈ index.parts, maxWord32 < part.tree.size

/-- Whether a query of an index failed at a leaf whose end is lost, as a tree has more points than a
word can count. -/
def Lost (index : Index N D) (result : Except Error α) : Prop :=
  index.Overfull ∧ ∃ first, result = .error (.missingPoints first 0)

/-- Storing a tree makes it neither full nor less full. -/
theorem overfull_stored {index : Index N D} : index.stored.Overfull ↔ index.Overfull := by
  have hsize (part : Part N) : part.stored.tree.size = part.tree.size := rfl
  simp only [Overfull, stored, List.mem_map, exists_exists_and_eq_and, hsize]

variable [Coordinate N] {index : Index N D}

/-- Whether all trees of an index can be searched as they are meant. -/
structure Meant (index : Index N D) : Prop where
  dims_eq : index.dims = index.source.dims
  tree : ∀ part ∈ index.parts, part.tree.Meant index.source

/-- An index is kept as it is meant unless a tree has more points than a word can count. -/
theorem Meant.stored_eq (h : index.Meant) (hfits : ¬ index.Overfull) : index.stored = index := by
  have hparts : index.parts.map Part.stored = index.parts := by
    refine (List.map_congr_left fun part hpart => ?_).trans (List.map_id _)
    have hsize : part.tree.size ≤ maxWord32 := by
      by_contra hover
      exact hfits ⟨part, hpart, Nat.lt_of_not_le hover⟩
    rw [Part.stored, (h.tree part hpart).stored_eq hsize, id]
  rw [stored, hparts]

/-- Trees that each keep one that is meant are those of an index that is meant. -/
theorem exists_meant (hdims : index.dims = index.source.dims) (h : ∀ part ∈ index.parts,
    ∃ meant : Tree N, part.tree = meant.stored ∧ meant.Meant index.source) :
    ∃ meant : Index N D, index = meant.stored ∧ meant.Meant := by
  have hparts (parts : List (Part N)) (hall : ∀ part ∈ parts, ∃ meant : Tree N,
      part.tree = meant.stored ∧ meant.Meant index.source) : ∃ meant : List (Part N),
      parts = meant.map Part.stored ∧ ∀ part ∈ meant, part.tree.Meant index.source := by
    induction parts with
    | nil => exact ⟨[], rfl, nofun⟩
    | cons part parts ih =>
      obtain ⟨⟨meant, htree, hmeant⟩, hrest⟩ := List.forall_mem_cons.mp hall
      obtain ⟨rest, rfl, hparts⟩ := ih hrest
      have hpart : part = (⟨meant, part.isLive⟩ : Part N).stored := by rw [Part.stored, ← htree]
      exact ⟨_ :: rest, congrArg (· :: rest.map Part.stored) hpart,
        List.forall_mem_cons.mpr ⟨hmeant, hparts⟩⟩
  obtain ⟨parts, hstored, hmeant⟩ := hparts index.parts h
  exact ⟨{ index with parts }, by rw [stored, ← hstored], hdims, hmeant⟩

omit [Coordinate N] in
/-- An index has the same points that count, as they are kept and as they are meant. -/
@[simp] theorem points_stored (index : Index N D) : index.stored.points = index.points := by
  rw [points, stored, List.flatMap_map]
  rfl

omit [Coordinate N] in
@[simp] theorem neighbors_stored (index : Index N D) (query : List N) :
    index.stored.neighbors query = index.neighbors query :=
  congrArg (List.map _) index.points_stored

/-- A query of an index that is meant is answered exactly if the metric bounds its distances. -/
theorem Meant.sound [Distance D] (h : index.Meant) {query : List N}
    (hlength : query.length = index.dims) (hbounds : index.metric.Bounds query) :
    index.Sound query :=
  ⟨hlength, h.dims_eq, hbounds, fun part hpart => (h.tree part hpart).searchable⟩

variable [Distance D] [ToString D]

omit [Coordinate N] in
/-- A query leaves out as much of an index as it is kept and as it is meant. -/
theorem thorough_stored {query : List N} {options : SearchOptions D} :
    index.stored.Thorough query options ↔ index.Thorough query options := by
  constructor
  · rintro ⟨hvalid, hleaves, hstretch, hreach⟩
    exact ⟨hvalid, hleaves, hstretch, fun i hi => hreach i (by rwa [points_stored])⟩
  · rintro ⟨hvalid, hleaves, hstretch, hreach⟩
    exact ⟨hvalid, hleaves, hstretch, fun i hi => hreach i (by rwa [points_stored] at hi)⟩

/-- A query of an index as it is kept ends as it was meant, or is lost. -/
theorem Meant.find_stored [Collector σ D] (h : index.Meant) (state : σ) (query : List N)
    (options : SearchOptions D) :
    index.stored.find state query options = index.find state query options ∨
      index.stored.Lost (index.stored.find state query options) := by
  by_cases hfits : index.Overfull
  · have hparts (parts : List (Part N)) (hmeant : ∀ part ∈ parts, part.tree.Meant index.source)
        (progress : Progress σ) : Outcome.UpToLoss
          ((parts.map Part.stored).foldlM (fun progress part => Inquiry.run
            ⟨part.tree, index.source, index.metric, query, options.slack, part.isLive⟩ progress)
            progress)
          (parts.foldlM (fun progress part => Inquiry.run
            ⟨part.tree, index.source, index.metric, query, options.slack, part.isLive⟩ progress)
            progress) := by
      induction parts generalizing progress with
      | nil => exact .refl _
      | cons part parts ih =>
        obtain ⟨hpart, hrest⟩ := List.forall_mem_cons.mp hmeant
        let inquiry : Inquiry N D :=
          ⟨part.tree, index.source, index.metric, query, options.slack, part.isLive⟩
        have hrun := inquiry.run_stored hpart progress
        rw [List.map_cons, List.foldlM_cons, List.foldlM_cons]
        exact hrun.bind fun next => ih hrest next
    have hboth : Outcome.UpToLoss (index.stored.find state query options)
        (index.find state query options) := by
      have hdims : index.stored.dims = index.dims := rfl
      unfold find
      rw [hdims]
      split
      · exact .refl _
      · exact (Outcome.UpToLoss.refl options.validate).bind fun _ =>
          (hparts index.parts h.tree _).bind fun _ => .refl _
    exact hboth.imp_right fun hlost => ⟨overfull_stored.mpr hfits, hlost⟩
  · rw [h.stored_eq hfits]
    exact .inl rfl

omit [Coordinate N] [Distance D] [ToString D] in
/-- What is made of a query that is lost is lost. -/
theorem Lost.bind {result : Except Error α} (h : index.Lost result) (next : α → Except Error β) :
    index.Lost (result >>= next) := by
  obtain ⟨hover, first, rfl⟩ := h
  exact ⟨hover, first, rfl⟩

/-- So does what is made of it. -/
theorem Meant.find_stored_bind [Collector σ D] (h : index.Meant) (state : σ) (query : List N)
    (options : SearchOptions D) (next : σ → Except Error α) :
    index.stored.find state query options >>= next = index.find state query options >>= next ∨
      index.stored.Lost (index.stored.find state query options >>= next) := by
  rcases h.find_stored state query options with hsame | hlost
  · rw [hsame]
    exact .inl rfl
  · exact .inr (hlost.bind next)

/-- What is stored answers for the nearest points as meant, unless the search is lost. -/
theorem Meant.nearestWith_stored (h : index.Meant) (query : List N) (k : Nat)
    (options : SearchOptions D) :
    index.stored.nearestWith query k options = index.nearestWith query k options ∨
      index.stored.Lost (index.stored.nearestWith query k options) := by
  unfold nearestWith
  cases requireSome k with
  | error e => exact .inl rfl
  | ok _ => exact h.find_stored_bind (Nearest.ofSize k) query options _

/-- What is stored answers for the nearest points within a radius as meant, unless the search is
lost. -/
theorem Meant.nearestWithin_stored (h : index.Meant) (query : List N) (k : Nat) (radius : D)
    (options : SearchOptions D) :
    index.stored.nearestWithin query k radius options = index.nearestWithin query k radius options ∨
      index.stored.Lost (index.stored.nearestWithin query k radius options) := by
  unfold nearestWithin
  cases requireSome k with
  | error e => exact .inl rfl
  | ok _ =>
    cases requireRadius radius with
    | error e => exact .inl rfl
    | ok _ =>
      exact h.find_stored_bind (Nearest.upTo k (index.metric.ofRadius radius)) query options _

/-- What is stored lists the points within a radius as meant, unless the search is lost. -/
theorem Meant.within_stored (h : index.Meant) (query : List N) (radius : D)
    (options : SearchOptions D) :
    index.stored.within query radius options = index.within query radius options ∨
      index.stored.Lost (index.stored.within query radius options) := by
  unfold within
  cases requireRadius radius with
  | error e => exact .inl rfl
  | ok _ =>
    exact h.find_stored_bind (Within.ofRadius (index.metric.ofRadius radius)) query options _

end Index

end Proximity
