import Mathlib
import Proximity.Proofs.Tree.Format
import Proximity.Proofs.Tree.Stepwise

/-!
# What the reader accepts

Whatever the bytes, a tree that was read has passed every check: its numbers fit, its leaves are
ranges of its points, its branches split on axes that it has, and its points are points of the
source that it names. Reading step by step leaves the same nodes in a table.
-/

namespace Proximity

variable {N : Type}

namespace Reader

theorem map_eq_ok {α β : Type} {reader : Reader β} {f : β → α} {stream rest : Stream} {value : α} :
    (f <$> reader) stream = .ok (value, rest) ↔
      ∃ before, reader stream = .ok (before, rest) ∧ f before = value := by
  show reader stream >>= (fun step => pure (f step.1, step.2)) = _ ↔ _
  rw [Outcome.bind_eq_ok]
  constructor
  · rintro ⟨⟨before, after⟩, hread, hvalue⟩
    cases hvalue
    exact ⟨before, hread, rfl⟩
  · rintro ⟨before, hread, rfl⟩
    exact ⟨_, hread, rfl⟩

/-- As many items are read as were asked for. -/
theorem size_many {α : Type} {item : Reader α} {count : Nat} {read final : Array α}
    {stream rest : Stream} (h : many item count read stream = .ok (final, rest)) :
    final.size = read.size + count := by
  induction count generalizing read stream with
  | zero => cases h; rfl
  | succ count ih =>
    rw [many] at h
    split at h
    · cases h
    · rw [ih h, Array.size_push]
      omega

theorem length_wordsOf (width count : Nat) (bytes : List UInt8) :
    (wordsOf width count bytes).length = count := by
  induction count generalizing bytes with
  | zero => rfl
  | succ count ih => rw [wordsOf, List.length_cons, ih]

/-- As many words are read as were asked for, if there are enough chunks. -/
theorem size_words {width chunks count : Nat} {read final : Array Nat} {stream rest : Stream}
    (h : words width chunks count read stream = .ok (final, rest))
    (hchunks : count ≤ chunks * chunkLength) : final.size = read.size + count := by
  induction chunks generalizing count read stream with
  | zero =>
    cases pure_eq_ok.mp h
    omega
  | succ chunks ih =>
    obtain ⟨bytes, after, -, h⟩ := bind_eq_ok.mp h
    have hmul : (chunks + 1) * chunkLength = chunks * chunkLength + chunkLength := by ring
    have hlength := length_wordsOf width (min count chunkLength) bytes
    rw [ih h (by omega), ← Array.length_toList, Array.toList_appendList, List.length_append, hlength,
      Array.length_toList]
    omega

end Reader

variable [Storable N]

/-- A node that was read splits on axes and has ranges of points that there are, and every node
was counted. -/
theorem Node.fits_of_read {dims points announced levels count final : Nat} {node : Node N}
    {stream rest : Stream}
    (h : read dims points announced levels count stream = .ok ((node, final), rest)) :
    node.Fits dims points ∧ final + 1 = count + node.count := by
  induction levels generalizing count final node stream rest with
  | zero => nomatch h
  | succ levels ih =>
    rcases Node.read_eq_ok h with
      ⟨first, last, afterTag, afterFirst, -, -, -, hrange, rfl, rfl⟩ |
      ⟨axis, split, left, right, middle, afterTag, afterAxis, afterSplit, afterLeft, -, -, -,
        haxis, -, hleft, hright, rfl⟩
    · exact ⟨⟨by omega, by omega⟩, rfl⟩
    · obtain ⟨hleftFits, hleftCount⟩ := ih hleft
      obtain ⟨hrightFits, hrightCount⟩ := ih hright
      refine ⟨⟨by omega, hleftFits, hrightFits⟩, ?_⟩
      rw [Node.count]
      omega

namespace Tree

variable [Coordinate N] {tree : Tree N} {sourceSize : Nat} {stream rest : Stream}

/-- A tree that was read fits and has no more nodes than the reader believes in. What was read is
a header with its numbers, the sides of its box, its points and as many nodes as it has. -/
theorem read_parts (h : read stream = .ok ((tree, sourceSize), rest)) :
    tree.Fits sourceSize ∧ tree.nodes ≤ 2 * tree.size ∧
      ∃ header afterHeader sides afterSides afterOrder,
        Reader.take headerSize stream = .ok (header, afterHeader) ∧
        checkHeader N treeMark .noTreeFormat header = .ok () ∧
        (wordAt header 2 2 = tree.dims ∧ wordAt header 4 4 = tree.leafSize ∧
          wordAt header 8 4 = sourceSize ∧ wordAt header 12 4 = tree.size ∧
          wordAt header 16 4 = tree.nodes) ∧
        Reader.many (Reader.side N) tree.dims #[] afterHeader = .ok (sides, afterSides) ∧
        sides.toList = tree.box.sides ∧
        Reader.words (indexWidth sourceSize)
            ((tree.size + Reader.chunkLength - 1) / Reader.chunkLength) tree.size #[] afterSides =
          .ok (tree.order, afterOrder) ∧
        Node.read tree.dims tree.size tree.nodes tree.nodes 1 afterOrder =
          .ok ((tree.root, tree.nodes), rest) := by
  obtain ⟨header, afterHeader, hheader, h⟩ := Reader.bind_eq_ok.mp h
  obtain ⟨_, afterCheck, hlift, h⟩ := Reader.bind_eq_ok.mp h
  obtain ⟨hcheck, rfl⟩ := Reader.lift_eq_ok.mp hlift
  dsimp only at h
  obtain ⟨hzero, h⟩ := Reader.guard_eq_ok.mp h
  obtain ⟨hmany, h⟩ := Reader.guard_eq_ok.mp h
  obtain ⟨hnodes, h⟩ := Reader.guard_eq_ok.mp h
  obtain ⟨sides, afterSides, hsides, h⟩ := Reader.bind_eq_ok.mp h
  obtain ⟨hcrossed, h⟩ := Reader.guard_eq_ok.mp h
  obtain ⟨order, afterOrder, horder, h⟩ := Reader.bind_eq_ok.mp h
  cases hbad : order.find? (wordAt header 8 4 ≤ ·) with
  | some bad =>
    rw [hbad] at h
    obtain ⟨_, _, hthrow, -⟩ := Reader.bind_eq_ok.mp h
    nomatch hthrow
  | none =>
    rw [hbad] at h
    obtain ⟨⟨root, count⟩, afterRoot, hroot, h⟩ := Reader.bind_eq_ok.mp h
    obtain ⟨hcount, h⟩ := Reader.guard_eq_ok.mp h
    obtain ⟨many, hmanySides, rfl⟩ := Reader.map_eq_ok.mp hsides
    obtain ⟨hrootFits, hrootCount⟩ := Node.fits_of_read hroot
    cases Reader.pure_eq_ok.mp h
    clear h
    dsimp only at hcount
    rw [not_not] at hcount
    subst hcount
    rw [not_or, not_or] at hzero
    rw [not_or] at hnodes
    have hdims := wordAt_lt header 2 2
    have hleaf := wordAt_lt header 4 4
    have hsource := wordAt_lt header 8 4
    have hannounced := wordAt_lt header 16 4
    have hbox : many.toList.length = wordAt header 2 2 := by
      rw [Array.length_toList, Reader.size_many hmanySides, Array.size_empty, Nat.zero_add]
    have hsize : order.size = wordAt header 12 4 := by
      rw [Reader.size_words horder (by rw [Reader.chunkLength]; omega), Array.size_empty,
        Nat.zero_add]
    have hrootNodes : root.count = wordAt header 16 4 := by omega
    have hrange : ∀ {n}, n < 256 ^ 4 → n ≤ maxWord32 := fun hn => by rw [maxWord32]; omega
    have hdimsLe : wordAt header 2 2 ≤ maxWord16 := by rw [maxWord16]; omega
    have hnodesLe : root.count ≤ maxWord32 := hrange (hrootNodes ▸ hannounced)
    rw [← hsize] at hzero hmany hnodes hrootFits horder
    have hfew : root.count ≤ 2 * order.size := by omega
    refine ⟨?_, hfew, header, afterHeader, many, afterSides, afterOrder, hheader, hcheck,
      ⟨rfl, rfl, rfl, hsize.symm, hrootNodes.symm⟩, hmanySides, rfl, horder, ?_⟩
    · exact {
        dims_ne_zero := hzero.1
        dims_le := hdimsLe
        leafSize_ne_zero := hzero.2.1
        leafSize_le := hrange hleaf
        size_ne_zero := hzero.2.2
        size_le := Nat.le_of_not_lt hmany
        sourceSize_le := hrange hsource
        nodes_le := hnodesLe
        box_dims := hbox
        uncrossed := by simpa only [List.any_eq_true, not_exists, not_and, decide_eq_true_eq]
          using hcrossed
        inside := by simpa using hbad
        root := hrootFits }
    · rw [← hsize, ← hrootNodes] at hroot
      exact hroot

/-- A tree that was read fits, has no more nodes than the reader believes in, and its nodes were
the last thing read. -/
theorem read_eq_ok (h : read stream = .ok ((tree, sourceSize), rest)) :
    tree.Fits sourceSize ∧ tree.nodes ≤ 2 * tree.size ∧ ∃ before,
      Node.read tree.dims tree.size tree.nodes tree.nodes 1 before =
        .ok ((tree.root, tree.nodes), rest) := by
  obtain ⟨hfits, hnodes, _, _, _, _, afterOrder, -, -, -, -, -, -, hroot⟩ := read_parts h
  exact ⟨hfits, hnodes, afterOrder, hroot⟩

omit [Coordinate N] in
/-- As many nodes as are announced are read step by step into a table. -/
theorem table_of_root {before : Stream} (hword : tree.nodes ≤ maxWord32)
    (hroot : Node.read tree.dims tree.size tree.nodes tree.nodes 1 before =
      .ok ((tree.root, tree.nodes), rest)) (chunkLength : Nat) :
    ∃ start table, (Table.empty chunkLength none).push .vacant = .ok start ∧
      steps (readStep tree.dims tree.size tree.nodes) tree.nodes ⟨start, [0]⟩ before =
        .ok (⟨table, []⟩, rest) ∧
      tree.table chunkLength none = .ok table ∧ table.size = tree.nodes := by
  have hroom : requireRoomUnder (Table.empty chunkLength none : Table (Cell N)).cap
      (Table.empty chunkLength none : Table (Cell N)).size = .ok () := rfl
  obtain ⟨start, hstart⟩ := Table.push_of_room hroom .vacant
  obtain ⟨hsize, hcap⟩ := Table.size_push hstart
  obtain ⟨table, htable, htableSize, hsteps⟩ := steps_readStep hroot hsize hcap hword []
  exact ⟨start, table, hstart, hsteps, Outcome.bind_eq_ok.mpr ⟨start, hstart, htable⟩,
    htableSize⟩

/-- What a tree is read as at once is laid out in the table that reading step by step leaves. -/
theorem table_of_read (h : read stream = .ok ((tree, sourceSize), rest)) (chunkLength : Nat) :
    ∃ before start table, (Table.empty chunkLength none).push .vacant = .ok start ∧
      steps (readStep tree.dims tree.size tree.nodes) tree.nodes ⟨start, [0]⟩ before =
        .ok (⟨table, []⟩, rest) ∧
      tree.table chunkLength none = .ok table ∧ table.size = tree.nodes := by
  obtain ⟨hfits, -, before, hroot⟩ := read_eq_ok h
  exact ⟨before, table_of_root hfits.nodes_le hroot chunkLength⟩

end Tree

end Proximity
