import Proximity.Bytes.LittleEndian
import Proximity.Error

/-!
# Byte streams

A stream to read from holds the bytes it will still deliver and what happens after them: it may
be closed there, or it may break. Reading nothing succeeds even then. What is written goes to a
sink, which may take only so many bytes.
-/

namespace Proximity

/-- What happens when a stream has delivered all its bytes. -/
inductive Ending where
  | closed
  | broken
  deriving DecidableEq, Repr

/-- What a read past the end fails with. -/
def Ending.error : Ending → Error
  | closed => .incomplete
  | broken => .readFailed

/-- A stream of bytes to be read. -/
structure Stream where
  bytes : List UInt8
  ending : Ending
  deriving DecidableEq, Repr

namespace Stream

/-- The stream of some bytes and nothing after them. -/
def ofBytes (bytes : List UInt8) : Stream := ⟨bytes, .closed⟩

/-- The stream that breaks once it has delivered so many bytes, if there are as many. -/
def breakingAfter (bytes : List UInt8) (count : Nat) : Stream :=
  if count ≤ bytes.length then ⟨bytes.take count, .broken⟩ else ofBytes bytes

end Stream

/-- Reading a value from a stream. -/
abbrev Reader (α : Type) := StateT Stream (Except Error) α

namespace Reader

/-- The next bytes of a stream. -/
def take (count : Nat) : Reader (List UInt8) := fun stream =>
  let (taken, rest) := stream.bytes.splitAt count
  if taken.length = count then .ok (taken, { stream with bytes := rest })
  else .error stream.ending.error

/-- The next word of a stream. -/
def word (width : Nat) : Reader Nat := LittleEndian.ofBytes <$> take width

/-- So many items of one kind, put after those already read. -/
def many {α : Type} (item : Reader α) : (count : Nat) → Array α → Reader (Array α)
  | 0, read, stream => .ok (read, stream)
  | count + 1, read, stream =>
    match item stream with
    | .error e => .error e
    | .ok (value, stream) => many item count (read.push value) stream

end Reader

/-- What was written, and why no more was if something failed. -/
structure Emission where
  bytes : List UInt8
  failure : Option Error
  deriving DecidableEq, Repr

namespace Emission

/-- All of some bytes. -/
def ofBytes (bytes : List UInt8) : Emission := ⟨bytes, none⟩

/-- Some bytes and then another emission, unless they cannot be had. -/
def andThen (bytes : Except Error (List UInt8)) (rest : Emission) : Emission :=
  match bytes with
  | .error e => ⟨[], some e⟩
  | .ok bytes => ⟨bytes ++ rest.bytes, rest.failure⟩

/-- What reaches a sink that breaks when it has taken so many bytes. -/
def into (emission : Emission) (room : Nat) : Emission :=
  if emission.bytes.length ≤ room then emission
  else ⟨emission.bytes.take room, some .writeFailed⟩

/-- The bytes, if all were written. -/
def toBytes (emission : Emission) : Except Error (List UInt8) :=
  match emission.failure with
  | none => .ok emission.bytes
  | some e => .error e

end Emission

end Proximity
