import Mathlib
import Proximity.Proofs.Bytes.Words
import Proximity.Tree.Format

/-!
# Reading what was written

A tree whose numbers fit their widths is read back from its bytes, whatever follows them. The one
check of the reader that a tree need not pass by being built is the one on the number of its nodes.
-/

namespace Proximity

variable {N : Type} [Storable N] {ending : Ending} {rest : List UInt8}

namespace Reader

theorem coordinate_toBytes (v : N) :
    coordinate N ⟨Storable.toBytes v ++ rest, ending⟩ = .ok (v, ⟨rest, ending⟩) := by
  rw [coordinate, map_eq (take_append (Storable.length_toBytes v)), Storable.ofBytes_toBytes]

theorem side_toBytes (side : Side N) :
    Reader.side N ⟨(Storable.toBytes side.low ++ Storable.toBytes side.high) ++ rest, ending⟩ =
      .ok (side, ⟨rest, ending⟩) := by
  rw [Reader.side, List.append_assoc, bind_eq (coordinate_toBytes side.low),
    bind_eq (coordinate_toBytes side.high)]
  rfl

end Reader

theorem maxWord16_lt : maxWord16 < LittleEndian.capacity 2 := by decide

theorem maxWord32_lt : maxWord32 < LittleEndian.capacity 4 := by decide

theorem Node.count_pos {N : Type} (node : Node N) : 0 < node.count := by
  cases node with
  | leaf first last => exact Nat.one_pos
  | branch axis split left right =>
    rw [Node.count]
    omega

/-- Whether every axis of a node is one of so many and every leaf a range of so many points. -/
def Node.Fits {N : Type} (dims size : Nat) : Node N → Prop
  | .leaf first last => first ≤ last ∧ last ≤ size
  | .branch axis _ left right => axis < dims ∧ left.Fits dims size ∧ right.Fits dims size

/-- What is read is a leaf with a range of the points, or a branch on one of the axes with its
children after it, for which there is room among the nodes announced. -/
theorem Node.read_eq_ok {dims points announced levels count final : Nat} {node : Node N}
    {stream after : Stream}
    (h : read dims points announced (levels + 1) count stream = .ok ((node, final), after)) :
    (∃ first last afterTag afterFirst, Reader.word 1 stream = .ok (0, afterTag) ∧
      Reader.word 4 afterTag = .ok (first, afterFirst) ∧
      Reader.word 4 afterFirst = .ok (last, after) ∧ ¬ (last < first ∨ points < last) ∧
      node = .leaf first last ∧ final = count) ∨
    ∃ axis split left right middle afterTag afterAxis afterSplit afterLeft,
      Reader.word 1 stream = .ok (1, afterTag) ∧
      Reader.word 2 afterTag = .ok (axis, afterAxis) ∧
      Reader.coordinate N afterAxis = .ok (split, afterSplit) ∧
      ¬ dims ≤ axis ∧ ¬ announced < count + 2 ∧
      read dims points announced levels (count + 2) afterSplit =
        .ok ((left, middle), afterLeft) ∧
      read dims points announced levels middle afterLeft = .ok ((right, final), after) ∧
      node = .branch axis split left right := by
  rw [read] at h
  obtain ⟨tag, afterTag, htag, h⟩ := Reader.bind_eq_ok.mp h
  cases tag with
  | zero =>
    obtain ⟨first, afterFirst, hfirst, h⟩ := Reader.bind_eq_ok.mp h
    obtain ⟨last, afterLast, hlast, h⟩ := Reader.bind_eq_ok.mp h
    obtain ⟨hrange, h⟩ := Reader.guard_eq_ok.mp h
    cases Reader.pure_eq_ok.mp h
    exact .inl ⟨first, last, afterTag, afterFirst, htag, hfirst, hlast, hrange, rfl, rfl⟩
  | succ tag =>
    cases tag with
    | zero =>
      obtain ⟨axis, afterAxis, haxis, h⟩ := Reader.bind_eq_ok.mp h
      obtain ⟨split, afterSplit, hsplit, h⟩ := Reader.bind_eq_ok.mp h
      obtain ⟨hdims, h⟩ := Reader.guard_eq_ok.mp h
      obtain ⟨hroom, h⟩ := Reader.guard_eq_ok.mp h
      obtain ⟨⟨left, middle⟩, afterLeft, hleft, h⟩ := Reader.bind_eq_ok.mp h
      obtain ⟨⟨right, last⟩, afterRight, hright, h⟩ := Reader.bind_eq_ok.mp h
      cases Reader.pure_eq_ok.mp h
      exact .inr ⟨axis, split, left, right, middle, afterTag, afterAxis, afterSplit, afterLeft,
        htag, haxis, hsplit, hdims, hroom, hleft, hright, rfl⟩
    | succ tag => nomatch h

section

variable {dims points announced levels count : Nat} {stream afterTag after : Stream}

/-- A leaf is read from its tag and its two ends. -/
theorem Node.read_leaf {first last : Nat} {afterFirst : Stream}
    (htag : Reader.word 1 stream = .ok (0, afterTag))
    (hfirst : Reader.word 4 afterTag = .ok (first, afterFirst))
    (hlast : Reader.word 4 afterFirst = .ok (last, after))
    (hrange : ¬ (last < first ∨ points < last)) :
    (read dims points announced (levels + 1) count : Reader (Node N × Nat)) stream =
      .ok ((.leaf first last, count), after) := by
  rw [read]
  refine Reader.bind_eq_ok.mpr ⟨0, _, htag, ?_⟩
  refine Reader.bind_eq_ok.mpr ⟨first, _, hfirst, ?_⟩
  refine Reader.bind_eq_ok.mpr ⟨last, _, hlast, ?_⟩
  exact Reader.guard_eq_ok.mpr ⟨hrange, rfl⟩

theorem Node.read_branch {axis middle final : Nat} {split : N} {left right : Node N}
    {afterAxis afterSplit afterLeft : Stream}
    (htag : Reader.word 1 stream = .ok (1, afterTag))
    (haxis : Reader.word 2 afterTag = .ok (axis, afterAxis))
    (hsplit : Reader.coordinate N afterAxis = .ok (split, afterSplit)) (hdims : ¬ dims ≤ axis)
    (hroom : ¬ announced < count + 2)
    (hleft : read dims points announced levels (count + 2) afterSplit =
      .ok ((left, middle), afterLeft))
    (hright : read dims points announced levels middle afterLeft =
      .ok ((right, final), after)) :
    read dims points announced (levels + 1) count stream =
      .ok ((.branch axis split left right, final), after) := by
  rw [read]
  refine Reader.bind_eq_ok.mpr ⟨1, _, htag, ?_⟩
  refine Reader.bind_eq_ok.mpr ⟨axis, _, haxis, ?_⟩
  refine Reader.bind_eq_ok.mpr ⟨split, _, hsplit, ?_⟩
  refine Reader.guard_eq_ok.mpr ⟨hdims, Reader.guard_eq_ok.mpr ⟨hroom, ?_⟩⟩
  refine Reader.bind_eq_ok.mpr ⟨_, _, hleft, ?_⟩
  exact Reader.bind_eq_ok.mpr ⟨_, _, hright, rfl⟩

end

/-- A node is read back if as many nodes are announced as it adds. -/
theorem Node.read_encode {dims points announced levels count final : Nat} {node : Node N}
    (hfits : node.Fits dims points) (hdims : dims ≤ maxWord16) (hpoints : points ≤ maxWord32)
    (hlevels : node.count ≤ levels) (hfinal : final + 1 = count + node.count)
    (hannounced : final ≤ announced) :
    read dims points announced levels count ⟨node.encode ++ rest, ending⟩ =
      .ok ((node, final), ⟨rest, ending⟩) := by
  have hword16 := maxWord16_lt
  have hword32 := maxWord32_lt
  induction node generalizing levels count final rest with
  | leaf first last =>
    obtain ⟨hrange, hlast⟩ := hfits
    rw [Node.count] at hlevels hfinal
    obtain rfl : final = count := by omega
    obtain ⟨levels, rfl⟩ : ∃ n, levels = n + 1 := ⟨levels - 1, by omega⟩
    rw [encode, List.append_assoc, List.append_assoc]
    exact read_leaf (Reader.word_toBytes (by decide)) (Reader.word_toBytes (by omega))
      (Reader.word_toBytes (by omega)) (by omega)
  | branch axis split left right ihl ihr =>
    obtain ⟨haxis, hleft, hright⟩ := hfits
    rw [Node.count] at hlevels hfinal
    obtain ⟨levels, rfl⟩ : ∃ n, levels = n + 1 := ⟨levels - 1, by omega⟩
    have hposl := left.count_pos
    have hposr := right.count_pos
    have hmiddle : count + 2 + left.count - 1 + 1 = count + 2 + left.count := by omega
    rw [encode]
    simp only [List.append_assoc]
    exact read_branch (Reader.word_toBytes (by decide)) (Reader.word_toBytes (by omega))
      (Reader.coordinate_toBytes split) (by omega) (by omega)
      (ihl hleft (by omega) hmiddle (by omega)) (ihr hright (by omega) (by omega) hannounced)

namespace Tree

/-- Whether the numbers of a tree over a source of some size fit their widths, and pass the checks
of the reader on each of them. -/
structure Fits [Coordinate N] (tree : Tree N) (sourceSize : Nat) : Prop where
  dims_ne_zero : tree.dims ≠ 0
  dims_le : tree.dims ≤ maxWord16
  leafSize_ne_zero : tree.leafSize ≠ 0
  leafSize_le : tree.leafSize ≤ maxWord32
  size_ne_zero : tree.size ≠ 0
  size_le : tree.size ≤ sourceSize
  sourceSize_le : sourceSize ≤ maxWord32
  nodes_le : tree.nodes ≤ maxWord32
  box_dims : tree.box.dims = tree.dims
  uncrossed : ∀ side ∈ tree.box.sides, ¬ side.high < side.low
  inside : ∀ index ∈ tree.order, index < sourceSize
  root : tree.root.Fits tree.dims tree.size

/-- The bytes of the header. -/
def header (tree : Tree N) (sourceSize : Nat) : List UInt8 :=
  LittleEndian.toBytes 1 treeMark ++ LittleEndian.toBytes 1 (formatByte N) ++
    LittleEndian.toBytes 2 tree.dims ++ LittleEndian.toBytes 4 tree.leafSize ++
    LittleEndian.toBytes 4 sourceSize ++ LittleEndian.toBytes 4 tree.size ++
    LittleEndian.toBytes 4 tree.nodes

/-- Every header has the size that readers take. -/
theorem length_header (tree : Tree N) (sourceSize : Nat) :
    (tree.header sourceSize).length = headerSize := rfl

theorem encode_eq (tree : Tree N) (sourceSize : Nat) : tree.encode sourceSize =
    tree.header sourceSize ++
      (tree.box.sides.flatMap
          (fun side => Storable.toBytes side.low ++ Storable.toBytes side.high) ++
        (tree.order.toList.flatMap (LittleEndian.toBytes (indexWidth sourceSize)) ++
          tree.root.encode)) := by
  simp only [encode, header, List.append_assoc]

theorem formatByte_lt : formatByte N < LittleEndian.capacity 1 := by
  have htag := (Storable.kind N).tag_lt
  have hversion : formatVersion * 16 + 16 ≤ LittleEndian.capacity 1 := by decide
  rw [formatByte]
  omega

/-- A header with the right mark and type passes. -/
theorem checkHeader_eq_ok {header : List UInt8} {mark : Nat} {otherwise : Error}
    (hmark : wordAt header 0 1 = mark) (hkind : wordAt header 1 1 = formatByte N) :
    checkHeader N mark otherwise header = .ok () := by
  have htag := (Storable.kind N).tag_lt
  have hversion : formatByte N / 16 = formatVersion := by
    rw [formatByte]
    omega
  have htype : formatByte N % 16 = (Storable.kind N).tag := by
    rw [formatByte]
    omega
  simp only [checkHeader, hmark, hkind, hversion, htype, ne_eq, not_true_eq_false, ite_false]

/-- A header that was written passes its check. -/
theorem checkHeader_header (tree : Tree N) (sourceSize : Nat) :
    checkHeader N treeMark .noTreeFormat (tree.header sourceSize) = .ok () :=
  checkHeader_eq_ok (wordAt_eq rfl (by decide)) (wordAt_eq rfl formatByte_lt)

variable [Coordinate N] {tree : Tree N} {sourceSize : Nat}

/-- Every word of the header is found at its offset. -/
theorem Fits.words (h : tree.Fits sourceSize) :
    wordAt (tree.header sourceSize) 2 2 = tree.dims ∧
    wordAt (tree.header sourceSize) 4 4 = tree.leafSize ∧
    wordAt (tree.header sourceSize) 8 4 = sourceSize ∧
    wordAt (tree.header sourceSize) 12 4 = tree.size ∧
    wordAt (tree.header sourceSize) 16 4 = tree.nodes := by
  exact ⟨wordAt_eq rfl (h.dims_le.trans_lt maxWord16_lt),
    wordAt_eq rfl (h.leafSize_le.trans_lt maxWord32_lt),
    wordAt_eq rfl (h.sourceSize_le.trans_lt maxWord32_lt),
    wordAt_eq rfl ((h.size_le.trans h.sourceSize_le).trans_lt maxWord32_lt),
    wordAt_eq rfl (h.nodes_le.trans_lt maxWord32_lt)⟩

omit [Storable N] in
/-- Every point index fits the width that the source asks for. -/
theorem Fits.index_lt (h : tree.Fits sourceSize) :
    ∀ index ∈ tree.order.toList, index < LittleEndian.capacity (indexWidth sourceSize) := by
  intro index hindex
  have hword16 : LittleEndian.capacity 2 = 65536 := by decide
  have hword32 := maxWord32_lt
  have hlt := h.inside index (Array.mem_toList_iff.mp hindex)
  have hle := h.sourceSize_le
  rw [indexWidth]
  split <;> omega

omit [Coordinate N] in
theorem read_sides (tree : Tree N) :
    (Array.toList <$> Reader.many (Reader.side N) tree.box.dims #[])
        ⟨tree.box.sides.flatMap
          (fun side => Storable.toBytes side.low ++ Storable.toBytes side.high) ++ rest, ending⟩ =
      .ok (tree.box.sides, ⟨rest, ending⟩) := by
  rw [Box.dims, Reader.map_eq (Reader.many_flatMap (fun side rest => Reader.side_toBytes side) _ _)]
  simp

omit [Storable N] in
/-- The permutation is read back as it was written. -/
theorem Fits.read_order (h : tree.Fits sourceSize) :
    Reader.words (indexWidth sourceSize)
        ((tree.size + Reader.chunkLength - 1) / Reader.chunkLength) tree.size #[]
        ⟨tree.order.toList.flatMap (LittleEndian.toBytes (indexWidth sourceSize)) ++ rest,
          ending⟩ = .ok (tree.order, ⟨rest, ending⟩) := by
  have hlength : tree.order.toList.length = tree.size := Array.length_toList
  have hchunks : tree.order.toList.length ≤
      (tree.order.toList.length + Reader.chunkLength - 1) / Reader.chunkLength *
        Reader.chunkLength := by
    rw [Reader.chunkLength]
    omega
  rw [← hlength, Reader.words_flatMap h.index_lt hchunks #[]]
  simp

/-- As many nodes as the header announces are read back. -/
theorem Fits.read_root (h : tree.Fits sourceSize) :
    Node.read tree.dims tree.size tree.nodes tree.nodes 1 ⟨tree.root.encode ++ rest, ending⟩ =
      .ok ((tree.root, tree.nodes), ⟨rest, ending⟩) :=
  Node.read_encode h.root h.dims_le (h.size_le.trans h.sourceSize_le) (Nat.le_refl _)
    (Nat.add_comm _ _) (Nat.le_refl _)

/-- A tree that fits is read back if it has no more nodes than the reader believes in. -/
theorem Fits.read_encode (h : tree.Fits sourceSize) (hnodes : tree.nodes ≤ 2 * tree.size) :
    read ⟨tree.encode sourceSize ++ rest, ending⟩ = .ok ((tree, sourceSize), ⟨rest, ending⟩) := by
  obtain ⟨hdims, hleaf, hsource, hsize, hcount⟩ := h.words
  have hpos : 0 < tree.nodes := tree.root.count_pos
  have hcrossed : ¬ (tree.box.sides.any fun side => side.high < side.low) = true := by
    simpa using h.uncrossed
  have hbad : tree.order.find? (sourceSize ≤ ·) = none := by
    simpa using h.inside
  rw [encode_eq]
  simp only [List.append_assoc]
  refine Reader.bind_eq_ok.mpr ⟨_, _, Reader.take_append (length_header tree sourceSize), ?_⟩
  refine Reader.bind_eq_ok.mpr
    ⟨(), _, Reader.lift_eq_ok.mpr ⟨checkHeader_header tree sourceSize, rfl⟩, ?_⟩
  dsimp only
  rw [hdims, hleaf, hsource, hsize, hcount]
  refine Reader.guard_eq_ok.mpr ⟨?_, Reader.guard_eq_ok.mpr ⟨?_, Reader.guard_eq_ok.mpr ⟨?_, ?_⟩⟩⟩
  · exact not_or.mpr ⟨h.dims_ne_zero, not_or.mpr ⟨h.leafSize_ne_zero, h.size_ne_zero⟩⟩
  · exact Nat.not_lt.mpr h.size_le
  · exact not_or.mpr ⟨hpos.ne', Nat.not_lt.mpr hnodes⟩
  refine Reader.bind_eq_ok.mpr ⟨tree.box.sides, _, h.box_dims ▸ read_sides tree, ?_⟩
  refine Reader.guard_eq_ok.mpr ⟨hcrossed, ?_⟩
  refine Reader.bind_eq_ok.mpr ⟨tree.order, _, h.read_order, ?_⟩
  rw [hbad]
  refine Reader.bind_eq_ok.mpr ⟨(tree.root, tree.nodes), _, h.read_root, ?_⟩
  exact Reader.guard_eq_ok.mpr ⟨not_not.mpr rfl, rfl⟩

/-- A tree with more nodes is refused, however it was built. -/
theorem Fits.read_encode_of_lt (h : tree.Fits sourceSize) (hnodes : 2 * tree.size < tree.nodes) :
    (read : Reader (Tree N × Nat)) ⟨tree.encode sourceSize ++ rest, ending⟩ =
      .error (.impossibleNodeCount tree.nodes tree.size) := by
  obtain ⟨hdims, hleaf, hsource, hsize, hcount⟩ := h.words
  have hcheck : (liftM (checkHeader N treeMark .noTreeFormat (tree.header sourceSize)) :
      Reader Unit) ⟨tree.box.sides.flatMap
          (fun side => Storable.toBytes side.low ++ Storable.toBytes side.high) ++
        (tree.order.toList.flatMap (LittleEndian.toBytes (indexWidth sourceSize)) ++
          (tree.root.encode ++ rest)), ending⟩ = .ok ((), _) :=
    Reader.lift_eq_ok.mpr ⟨checkHeader_header tree sourceSize, rfl⟩
  rw [encode_eq]
  simp only [List.append_assoc]
  unfold Tree.read
  rw [Reader.bind_eq (Reader.take_append (length_header tree sourceSize)),
    Reader.bind_eq hcheck]
  dsimp only
  rw [hdims, hleaf, hsource, hsize, hcount, if_neg, if_neg (Nat.not_lt.mpr h.size_le),
    if_pos (.inr hnodes)]
  · rfl
  · exact not_or.mpr ⟨h.dims_ne_zero, not_or.mpr ⟨h.leafSize_ne_zero, h.size_ne_zero⟩⟩

end Tree

end Proximity
