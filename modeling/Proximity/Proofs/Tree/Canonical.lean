import Mathlib
import Proximity.Proofs.Loaded
import Proximity.Proofs.Tree.Accepting

/-!
# Bytes that were read

What was read is what is written of it: words, coordinates and nodes give back the bytes that they
were read from, whatever these were, and so does a tree. No two runs of bytes are therefore read as
the same tree, and a tree that was loaded is saved as it was.
-/

namespace Proximity

/-- Writing the word at an offset gives the bytes there. -/
theorem take_append_wordAt {bytes : List UInt8} {offset width : Nat}
    (h : offset + width ≤ bytes.length) :
    bytes.take offset ++ LittleEndian.toBytes width (wordAt bytes offset width) =
      bytes.take (offset + width) := by
  have hlength : ((bytes.drop offset).take width).length = width := by
    rw [List.length_take, List.length_drop]
    omega
  have hword := LittleEndian.toBytes_ofBytes ((bytes.drop offset).take width)
  rw [hlength] at hword
  rw [wordAt, hword, ← List.take_add]

namespace Reader

variable {α : Type} {stream rest : Stream}

/-- Whether what a reader takes from a stream is always what is written of the value. -/
def Returns (reader : Reader α) (encode : α → List UInt8) : Prop :=
  ∀ stream value rest, reader stream = .ok (value, rest) →
    stream = ⟨encode value ++ rest.bytes, rest.ending⟩

theorem returns_word (width : Nat) : (word width).Returns (LittleEndian.toBytes width) := by
  intro stream n rest h
  obtain ⟨bytes, htake, rfl⟩ := map_eq_ok.mp h
  obtain ⟨rfl, rfl⟩ := eq_append_of_take htake
  rw [LittleEndian.toBytes_ofBytes]

section Coordinates

variable (N : Type) [Storable N]

/-- Every bit of a coordinate is kept, ordered or not. -/
theorem returns_coordinate : (coordinate N).Returns Storable.toBytes := by
  intro stream v rest h
  obtain ⟨bytes, htake, rfl⟩ := map_eq_ok.mp h
  obtain ⟨rfl, hlength⟩ := eq_append_of_take htake
  rw [Storable.toBytes_ofBytes hlength]

theorem returns_side :
    (side N).Returns fun side => Storable.toBytes side.low ++ Storable.toBytes side.high := by
  intro stream side rest h
  obtain ⟨low, afterLow, hlow, h⟩ := bind_eq_ok.mp h
  obtain ⟨high, afterHigh, hhigh, h⟩ := bind_eq_ok.mp h
  cases pure_eq_ok.mp h
  obtain rfl := returns_coordinate N _ _ _ hlow
  obtain rfl := returns_coordinate N _ _ _ hhigh
  simp

end Coordinates

/-- Items that were read one after the other are written one after the other. -/
theorem Returns.many {item : Reader α} {encode : α → List UInt8} (h : item.Returns encode)
    {count : Nat} {read final : Array α} (hmany : many item count read stream = .ok (final, rest)) :
    ∃ items, final = read ++ items ∧
      stream = ⟨items.toList.flatMap encode ++ rest.bytes, rest.ending⟩ := by
  induction count generalizing read stream with
  | zero =>
    cases hmany
    exact ⟨#[], by simp⟩
  | succ count ih =>
    rw [Reader.many] at hmany
    split at hmany
    · cases hmany
    · next value after hitem =>
      obtain ⟨items, rfl, rfl⟩ := ih hmany
      obtain rfl := h _ _ _ hitem
      exact ⟨#[value] ++ items, by simp⟩

/-- The words in some bytes are written as these bytes. -/
theorem flatMap_wordsOf {width count : Nat} {bytes : List UInt8}
    (h : bytes.length = count * width) :
    (wordsOf width count bytes).flatMap (LittleEndian.toBytes width) = bytes := by
  induction count generalizing bytes with
  | zero =>
    rw [Nat.zero_mul] at h
    rw [List.eq_nil_of_length_eq_zero h]
    rfl
  | succ count ih =>
    rw [Nat.succ_mul] at h
    have hfirst : (bytes.take width).length = width := by
      rw [List.length_take]
      omega
    have hlater : (bytes.drop width).length = count * width := by
      rw [List.length_drop]
      omega
    have hword := LittleEndian.toBytes_ofBytes (bytes.take width)
    rw [hfirst] at hword
    rw [wordsOf, List.flatMap_cons, ih hlater, hword, List.take_append_drop]

/-- Words that were read in chunks are written one after the other. -/
theorem flatMap_of_words {width chunks count : Nat} {read final : Array Nat}
    (h : words width chunks count read stream = .ok (final, rest)) :
    ∃ items, final = read ++ items ∧ stream =
      ⟨items.toList.flatMap (LittleEndian.toBytes width) ++ rest.bytes, rest.ending⟩ := by
  induction chunks generalizing count read stream with
  | zero =>
    cases pure_eq_ok.mp h
    exact ⟨#[], by simp⟩
  | succ chunks ih =>
    obtain ⟨bytes, after, htake, h⟩ := bind_eq_ok.mp h
    obtain ⟨items, rfl, rfl⟩ := ih h
    obtain ⟨rfl, hlength⟩ := eq_append_of_take htake
    refine ⟨(wordsOf width (min count chunkLength) bytes).toArray ++ items, ?_, ?_⟩
    · apply Array.ext'
      simp
    · simp [flatMap_wordsOf hlength]

end Reader

variable {N : Type} [Storable N]

/-- A node and all below it are written as the bytes that they were read from. -/
theorem Node.eq_encode_of_read {dims points announced levels count final : Nat} {node : Node N}
    {stream rest : Stream}
    (h : read dims points announced levels count stream = .ok ((node, final), rest)) :
    stream = ⟨node.encode ++ rest.bytes, rest.ending⟩ := by
  induction levels generalizing count final node stream rest with
  | zero => nomatch h
  | succ levels ih =>
    rcases Node.read_eq_ok h with
      ⟨first, last, afterTag, afterFirst, htag, hfirst, hlast, -, rfl, -⟩ |
      ⟨axis, split, left, right, middle, afterTag, afterAxis, afterSplit, afterLeft, htag, haxis,
        hsplit, -, -, hleft, hright, rfl⟩
    · obtain rfl := Reader.returns_word 1 _ _ _ htag
      obtain rfl := Reader.returns_word 4 _ _ _ hfirst
      obtain rfl := Reader.returns_word 4 _ _ _ hlast
      simp [encode]
    · obtain rfl := Reader.returns_word 1 _ _ _ htag
      obtain rfl := Reader.returns_word 2 _ _ _ haxis
      obtain rfl := Reader.returns_coordinate N _ _ _ hsplit
      obtain rfl := ih hleft
      obtain rfl := ih hright
      simp [encode]

namespace Tree

/-- A header that passes begins with its mark, the version and the coordinate type. -/
theorem words_of_checkHeader {header : List UInt8} {mark : Nat} {otherwise : Error}
    (h : checkHeader N mark otherwise header = .ok ()) :
    wordAt header 0 1 = mark ∧ wordAt header 1 1 = formatByte N := by
  rw [checkHeader] at h
  split at h
  · cases h
  split at h
  · cases h
  split at h
  · cases h
  next hmark hversion htype =>
    rw [not_not] at hmark hversion htype
    refine ⟨hmark, ?_⟩
    rw [formatByte]
    omega

/-- A header that was read is written again from the numbers that were found in it. -/
theorem header_eq {tree : Tree N} {sourceSize : Nat} {header : List UInt8}
    (hlength : header.length = headerSize)
    (hcheck : checkHeader N treeMark .noTreeFormat header = .ok ())
    (hdims : wordAt header 2 2 = tree.dims) (hleaf : wordAt header 4 4 = tree.leafSize)
    (hsource : wordAt header 8 4 = sourceSize) (hsize : wordAt header 12 4 = tree.size)
    (hnodes : wordAt header 16 4 = tree.nodes) : tree.header sourceSize = header := by
  obtain ⟨hmark, hkind⟩ := words_of_checkHeader hcheck
  have hword {offset width : Nat} (h : offset + width ≤ 20) :
      header.take offset ++ LittleEndian.toBytes width (wordAt header offset width) =
        header.take (offset + width) :=
    take_append_wordAt (hlength ▸ h)
  have hfirst : LittleEndian.toBytes 1 (wordAt header 0 1) = header.take 1 := by
    simpa using hword (show 0 + 1 ≤ 20 by decide)
  rw [Tree.header, ← hmark, ← hkind, ← hdims, ← hleaf, ← hsource, ← hsize, ← hnodes, hfirst,
    hword (by decide), hword (by decide), hword (by decide), hword (by decide), hword (by decide),
    hword (by decide)]
  exact List.take_of_length_le hlength.le

variable [Coordinate N] {tree : Tree N} {sourceSize : Nat} {stream rest : Stream}

/-- A tree is written as the bytes that it was read from. -/
theorem eq_encode_of_read (h : read stream = .ok ((tree, sourceSize), rest)) :
    stream = ⟨tree.encode sourceSize ++ rest.bytes, rest.ending⟩ := by
  obtain ⟨-, -, header, afterHeader, sides, afterSides, afterOrder, hheader, hcheck,
    ⟨hdims, hleaf, hsource, hsize, hnodes⟩, hmany, hsides, hwords, hroot⟩ := read_parts h
  obtain ⟨rfl, hlength⟩ := Reader.eq_append_of_take hheader
  obtain ⟨items, rfl, rfl⟩ := (Reader.returns_side N).many hmany
  obtain ⟨order, horder, rfl⟩ := Reader.flatMap_of_words hwords
  obtain rfl := Node.eq_encode_of_read hroot
  rw [Array.empty_append] at horder
  rw [Array.empty_append] at hsides
  rw [encode_eq, header_eq hlength hcheck hdims hleaf hsource hsize hnodes, ← hsides, horder]
  simp only [List.append_assoc]

/-- The nodes are read again step by step, and written step by step from the table that this
leaves. -/
theorem loops_of_read (h : read stream = .ok ((tree, sourceSize), rest)) {chunkLength : Nat}
    (hchunk : 0 < chunkLength) :
    ∃ start table : Table (Cell N),
      (Table.empty chunkLength none).push .vacant = .ok start ∧
      steps (readStep tree.dims tree.size tree.nodes) tree.nodes ⟨start, [0]⟩
          ⟨tree.root.encode ++ rest.bytes, rest.ending⟩ = .ok (⟨table, []⟩, rest) ∧
      steps (writeStep table) tree.nodes ⟨[], [0]⟩ = some ⟨tree.root.encode, []⟩ := by
  obtain ⟨hfits, -, -⟩ := read_eq_ok h
  obtain ⟨start, table, hstart, hread, htable, -⟩ :=
    table_of_root hfits.nodes_le hfits.read_root chunkLength
  obtain ⟨-, places, hat, -⟩ := occupies_table hchunk htable
  exact ⟨start, table, hstart, hread, steps_writeStep hat.stands [] []⟩

omit [Coordinate N] in
/-- Nodes that were read step by step until none was left are written step by step as the bytes
that they were read from. -/
theorem steps_writeStep_of_steps {dims points announced chunkLength count : Nat}
    {start table : Table (Cell N)} (hchunk : 0 < chunkLength) (hannounced : 0 < announced)
    (hstart : (Table.empty chunkLength none).push .vacant = .ok start)
    (h : steps (readStep dims points announced) count ⟨start, [0]⟩ stream =
      .ok (⟨table, []⟩, rest)) :
    ∃ bytes, stream = ⟨bytes ++ rest.bytes, rest.ending⟩ ∧
      steps (writeStep table) table.size ⟨[], [0]⟩ = some ⟨bytes, []⟩ := by
  have hsize : start.size = 1 := (Table.size_push hstart).1
  obtain ⟨node, filled, after, hread, hfilled, -, -, hdone⟩ :=
    read_of_steps h (show announced < announced + start.size by omega) (by omega)
  rw [steps_readStep_nil] at hdone
  cases hdone
  have hcount := (Node.size_layOut hfilled).1
  have hsound := (Table.sound_empty hchunk none).push hstart
  have hstands : node.Stands table 0 :=
    Node.stands_of_layOut hfilled hsound (by omega) fun _ _ _ => rfl
  refine ⟨node.encode, Node.eq_encode_of_read hread, ?_⟩
  rw [show table.size = node.count by omega]
  exact steps_writeStep hstands [] []

end Tree

/-- A tree is written as exactly the bytes that it was read from, at once and step by step. So the
same tree was read from the same bytes, and a file that was loaded is what is saved. -/
theorem encode_of_read [Coordinate N] :
    (∀ stream rest (tree : Tree N) sourceSize,
      Tree.read stream = .ok ((tree, sourceSize), rest) →
        stream = ⟨tree.encode sourceSize ++ rest.bytes, rest.ending⟩ ∧
        tree.encode sourceSize =
          stream.bytes.take (stream.bytes.length - rest.bytes.length) ∧
        ∀ chunkLength, 0 < chunkLength → ∃ start table : Table (Cell N),
          (Table.empty chunkLength none).push .vacant = .ok start ∧
          steps (Tree.readStep tree.dims tree.size tree.nodes) tree.nodes ⟨start, [0]⟩
              ⟨tree.root.encode ++ rest.bytes, rest.ending⟩ = .ok (⟨table, []⟩, rest) ∧
          steps (Tree.writeStep table) tree.nodes ⟨[], [0]⟩ = some ⟨tree.root.encode, []⟩) ∧
    (∀ dims points announced chunkLength count (start table : Table (Cell N)) stream rest,
      0 < chunkLength → 0 < announced →
      (Table.empty chunkLength none).push .vacant = .ok start →
      steps (Tree.readStep dims points announced) count ⟨start, [0]⟩ stream =
        .ok (⟨table, []⟩, rest) →
      ∃ bytes, stream = ⟨bytes ++ rest.bytes, rest.ending⟩ ∧
        steps (Tree.writeStep table) table.size ⟨[], [0]⟩ = some ⟨bytes, []⟩) ∧
    (∀ stream other rest after (result : Tree N × Nat),
      Tree.read stream = .ok (result, rest) → Tree.read other = .ok (result, after) →
        stream.bytes.take (stream.bytes.length - rest.bytes.length) =
          other.bytes.take (other.bytes.length - after.bytes.length)) ∧
    ∀ (source : Source N) file rest tree, Tree.load source (.ofBytes file) = .ok (tree, rest) →
      file = tree.encode source.size ++ rest.bytes := by
  have hencode {stream rest : Stream} {tree : Tree N} {sourceSize : Nat}
      (h : Tree.read stream = .ok ((tree, sourceSize), rest)) : tree.encode sourceSize =
        stream.bytes.take (stream.bytes.length - rest.bytes.length) := by
    obtain rfl := Tree.eq_encode_of_read h
    simp
  refine ⟨?_, ?_, ?_, ?_⟩
  · intro stream rest tree sourceSize h
    exact ⟨Tree.eq_encode_of_read h, hencode h, fun _ hchunk => Tree.loops_of_read h hchunk⟩
  · intro dims points announced chunkLength count start table stream rest hchunk hpos hstart h
    exact Tree.steps_writeStep_of_steps hchunk hpos hstart h
  · intro stream other rest after result h hother
    rw [← hencode h, ← hencode hother]
  · intro source file rest tree h
    obtain ⟨h, -⟩ := Tree.load_eq_ok.mp h
    exact congrArg Stream.bytes (Tree.eq_encode_of_read h)

/-- A tree over two points with a split and a box that are not ordered. -/
def blankTree : Tree Binary64 :=
  ⟨1, 1, #[1, 0], ⟨[⟨.undefined, .undefined⟩]⟩, .branch 0 .undefined (.leaf 0 1) (.leaf 1 2)⟩

/-- Such a tree is read from its bytes with others after them, and written as these bytes. -/
theorem encode_of_read_blankTree :
    (Tree.read : Reader (Tree Binary64 × Nat)) (.ofBytes (blankTree.encode 2 ++ [7])) =
      .ok ((blankTree, 2), .ofBytes [7]) ∧
    blankTree.encode 2 = (blankTree.encode 2 ++ [7]).take 69 ∧
    ∃ start table : Table (Cell Binary64), (Table.empty 8 none).push .vacant = .ok start ∧
      steps (Tree.readStep 1 2 3) 3 ⟨start, [0]⟩ ⟨blankTree.root.encode ++ [7], .closed⟩ =
        .ok (⟨table, []⟩, .ofBytes [7]) ∧
      steps (Tree.writeStep table) 3 ⟨[], [0]⟩ = some ⟨blankTree.root.encode, []⟩ ∧
      ∃ bytes, (⟨blankTree.root.encode ++ [7], .closed⟩ : Stream) = ⟨bytes ++ [7], .closed⟩ ∧
        steps (Tree.writeStep table) table.size ⟨[], [0]⟩ = some ⟨bytes, []⟩ := by
  have hread : (Tree.read : Reader (Tree Binary64 × Nat)) (.ofBytes (blankTree.encode 2 ++ [7])) =
      .ok ((blankTree, 2), .ofBytes [7]) := by decide +kernel
  obtain ⟨-, htake, hloops⟩ := encode_of_read.1 _ _ _ _ hread
  obtain ⟨start, table, hstart, hloop, hwritten⟩ := hloops 8 (by decide)
  exact ⟨hread, htake, start, table, hstart, hloop, hwritten,
    encode_of_read.2.1 1 2 3 8 3 start table _ _ (by decide) (by decide) hstart hloop⟩

end Proximity
