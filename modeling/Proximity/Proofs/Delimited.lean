import Mathlib
import Proximity.Forest.Format
import Proximity.Proofs.Bytes.Delimited
import Proximity.Proofs.Forest.Loading
import Proximity.Proofs.Forest.Reachable

/-!
# Where stored trees and forests end

No bytes that are read as a tree are the beginning of other bytes that are, and a stored tree that
was cut off anywhere is never taken for one. The same holds of forests, whose trees stand one after
the other between the bytes that announce them, and of the loop that reads nodes from a stack.
-/

namespace Proximity

variable {N D : Type} [Storable N]

/-- A node ends where its last descendant does. -/
theorem Node.delimited_read (dims points announced levels count : Nat) :
    (read dims points announced levels count : Reader (Node N × Nat)).Delimited := by
  induction levels generalizing count with
  | zero => exact Reader.delimited_throw _
  | succ levels ih =>
    rw [read]
    refine (Reader.delimited_word 1).bind fun tag => ?_
    match tag with
    | 0 =>
      refine (Reader.delimited_word 4).bind fun first => ?_
      refine (Reader.delimited_word 4).bind fun last => ?_
      exact (Reader.delimited_pure _).guard
    | 1 =>
      refine (Reader.delimited_word 2).bind fun axis => ?_
      refine (Reader.delimited_coordinate N).bind fun split => ?_
      refine Reader.Delimited.guard (Reader.Delimited.guard ?_)
      refine (ih (count + 2)).bind fun left => ?_
      exact (ih left.2).bind fun right => Reader.delimited_pure _
    | tag + 2 => exact Reader.delimited_throw _

namespace Tree

/-- One step of the loop takes the bytes of one node, without its children. -/
theorem delimited_readStep (dims points announced : Nat) (reading : Reading N) :
    (readStep dims points announced reading).Delimited := by
  rw [readStep]
  match reading.places with
  | [] => exact Reader.delimited_pure _
  | place :: places =>
    refine (Reader.delimited_word 1).bind fun tag => ?_
    match tag with
    | 0 =>
      refine (Reader.delimited_word 4).bind fun first => ?_
      refine (Reader.delimited_word 4).bind fun last => ?_
      exact (Reader.delimited_pure _).guard
    | 1 =>
      refine (Reader.delimited_word 2).bind fun axis => ?_
      refine (Reader.delimited_coordinate N).bind fun split => ?_
      refine Reader.Delimited.guard (Reader.Delimited.guard ?_)
      refine (Reader.delimited_lift _).bind fun one => ?_
      exact (Reader.delimited_lift _).bind fun two => Reader.delimited_pure _
    | tag + 2 => exact Reader.delimited_throw _

variable [Coordinate N]

/-- A tree in a stream ends where its own counts say, whatever follows. -/
theorem delimited_read : (read : Reader (Tree N × Nat)).Delimited := by
  refine (Reader.delimited_take _).bind fun header => ?_
  refine (Reader.delimited_lift _).bind fun _ => ?_
  refine Reader.Delimited.guard (Reader.Delimited.guard (Reader.Delimited.guard ?_))
  refine (((Reader.delimited_side N).many _ _).map _).bind fun sides => Reader.Delimited.guard ?_
  refine (Reader.delimited_words _ _ _ _).bind fun order => ?_
  have hnodes := Node.delimited_read (N := N) (wordAt header 2 2) (wordAt header 12 4)
    (wordAt header 16 4) (wordAt header 16 4) 1
  cases order.find? (wordAt header 8 4 ≤ ·) with
  | none => exact hnodes.bind fun node => (Reader.delimited_pure _).guard
  | some bad =>
    refine (Reader.delimited_throw _).bind fun _ => ?_
    exact hnodes.bind fun node => (Reader.delimited_pure _).guard

/-- A loaded tree is checked against its source without reading further. -/
theorem delimited_load (source : Source N) : (load source).Delimited :=
  delimited_read.bind fun _ => (((Reader.delimited_pure _).guard).guard).guard

end Tree

namespace Forest

variable [Coordinate N]

/-- What is checked of a tree in a slot, and where its points go, takes nothing from the stream. -/
theorem delimited_readSlots (sourceSize count : Nat) (forest : Forest N D) :
    (readSlots sourceSize count forest).Delimited := by
  induction count generalizing forest with
  | zero => exact Reader.delimited_pure forest
  | succ count ih =>
    rw [readSlots]
    refine (Reader.delimited_word 1).bind fun present => ?_
    split
    · exact ih _
    · refine Reader.Delimited.guard (Tree.delimited_read.bind fun read => ?_)
      have hput := (Reader.delimited_lift
        (putDistinct forest.slots.length read.1.order.toList forest.directory)).bind
          fun directory => ih (forest.plant read.1 directory)
      refine Reader.Delimited.guard ?_
      cases forest.options.maxNodes with
      | none => exact hput
      | some limit => exact Reader.Delimited.guard hput

/-- A forest ends where its header and its slots say, whatever follows. -/
theorem delimited_load (source : Source N) (maxNodes : Option Nat) (metric : Metric N D) :
    (load source maxNodes metric).Delimited := by
  refine (Reader.delimited_take _).bind fun header => ?_
  refine (Reader.delimited_lift _).bind fun _ => ?_
  refine Reader.Delimited.guard (Reader.Delimited.guard (Reader.Delimited.guard ?_))
  cases empty (wordAt header 2 2) ⟨wordAt header 4 4, maxNodes⟩ metric with
  | error e => exact (Reader.delimited_throw _).bind fun _ => delimited_readSlots _ _ _
  | ok begun => exact (Reader.delimited_pure begun).bind fun _ => delimited_readSlots _ _ _

end Forest

/-- A tree that is read, alone or over a source, a forest that is, and the nodes that a loop reads
take the same bytes whatever follows them, and a stream that is over or breaks among these bytes
fails for that reason. -/
theorem fares_stored [Coordinate N] :
    (∀ bytes taken rest (tree : Tree N) sourceSize,
      Tree.read (.ofBytes bytes) = .ok ((tree, sourceSize), rest) →
        taken + rest.bytes.length = bytes.length →
        rest = .ofBytes (bytes.drop taken) ∧ Tree.read.Fares bytes taken (tree, sourceSize)) ∧
    (∀ (source : Source N) bytes taken rest tree,
      Tree.load source (.ofBytes bytes) = .ok (tree, rest) →
        taken + rest.bytes.length = bytes.length →
        rest = .ofBytes (bytes.drop taken) ∧ (Tree.load source).Fares bytes taken tree) ∧
    (∀ (source : Source N) maxNodes (metric : Metric N D) bytes taken rest forest,
      Forest.load source maxNodes metric (.ofBytes bytes) = .ok (forest, rest) →
        taken + rest.bytes.length = bytes.length →
        rest = .ofBytes (bytes.drop taken) ∧
          (Forest.load source maxNodes metric).Fares bytes taken forest) ∧
    (∀ dims points announced count (reading : Tree.Reading N) bytes taken rest final,
      steps (Tree.readStep dims points announced) count reading (.ofBytes bytes) =
          .ok (final, rest) →
        taken + rest.bytes.length = bytes.length →
        rest = .ofBytes (bytes.drop taken) ∧
          Reader.Fares (steps (Tree.readStep dims points announced) count reading) bytes taken
            final) ∧
    Error.incomplete.kind = .serialization ∧ Error.readFailed.kind = .stream := by
  refine ⟨?_, ?_, ?_, ?_, rfl, rfl⟩
  · intro bytes taken rest tree sourceSize
    exact Tree.delimited_read.fares
  · intro source bytes taken rest tree
    exact (Tree.delimited_load source).fares
  · intro source maxNodes metric bytes taken rest forest
    exact (Forest.delimited_load source maxNodes metric).fares
  · intro dims points announced count reading bytes taken rest final
    exact (Reader.Delimited.steps (Tree.delimited_readStep dims points announced) count
      reading).fares

/-- The tree over four bytes with another byte after it, and the forest over them. -/
theorem fares_stored_bytes :
    Tree.read (.ofBytes (byteTree.encode 4 ++ [9])) = .ok ((byteTree, 4), .ofBytes [9]) ∧
    (Tree.read : Reader (Tree UInt8 × Nat)).Fares (byteTree.encode 4 ++ [9])
      (byteTree.encode 4).length (byteTree, 4) ∧
    ∃ bytes forest, (byteForest.save byteSource).toBytes = .ok bytes ∧
      Forest.load byteSource none byteForest.metric (.ofBytes bytes) = .ok (forest, .ofBytes []) ∧
      (Forest.load byteSource none byteForest.metric).Fares bytes bytes.length forest := by
  obtain ⟨hread, -, hload, -⟩ := fares_stored (N := UInt8) (D := Binary64)
  have htree : Tree.read (.ofBytes (byteTree.encode 4 ++ [9])) =
      .ok ((byteTree, 4), .ofBytes [9]) := by decide +kernel
  obtain ⟨bytes, forest, hbytes, hforest⟩ : ∃ bytes forest,
      (byteForest.save byteSource).toBytes = .ok bytes ∧
        Forest.load byteSource none byteForest.metric (.ofBytes bytes) =
          .ok (forest, .ofBytes []) := ⟨_, _, rfl, rfl⟩
  refine ⟨htree, (hread _ _ _ _ _ htree rfl).2, bytes, forest, hbytes, hforest, ?_⟩
  exact (hload _ _ _ _ _ _ _ hforest rfl).2

end Proximity
