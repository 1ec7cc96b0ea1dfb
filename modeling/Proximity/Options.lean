import Proximity.Number.Scalar
import Proximity.Error

/-!
# Options

How a tree is built and how a query is answered. Both are checked before any work is done.
-/

namespace Proximity

/-- The most nodes a tree can have, and the largest number its words can hold. -/
def maxWord32 : Nat := 4294967295

/-- What a word of that size keeps of a number. -/
def toWord32 (n : Nat) : Nat := n % (maxWord32 + 1)

/-- The most axes a tree can have. -/
def maxWord16 : Nat := 65535

/-- Fails if as many nodes as a cap allows, or as can be told apart, are there already. -/
def requireRoomUnder (cap : Option Nat) (count : Nat) : Except Error Unit :=
  if cap.any (· ≤ count) || maxWord32 ≤ count then .error (.nodesExhausted count) else .ok ()

/-- How a tree is built. -/
structure BuildOptions where
  /-- The most points in a leaf. -/
  leafSize : Nat
  /-- The most nodes in a tree, if there is a cap. -/
  maxNodes : Option Nat
  deriving DecidableEq, Repr

namespace BuildOptions

/-- Ten points in a leaf and no cap. -/
def standard : BuildOptions := ⟨10, none⟩

/-- Refuses a leaf size that no tree can be built with. -/
def validate (options : BuildOptions) : Except Error Unit :=
  if options.leafSize = 0 then .error .leafSizeZero
  else if maxWord32 < options.leafSize then .error (.leafSizeTooLarge options.leafSize)
  else .ok ()

/-- Fails if there are as many nodes as there may be. -/
def requireRoom (options : BuildOptions) (count : Nat) : Except Error Unit :=
  requireRoomUnder options.maxNodes count

end BuildOptions

/-- How a query is answered. -/
structure SearchOptions (D : Type) where
  /-- How much nearer, in parts of its distance, a part of the tree must be to be looked at. None
  gives exact answers. -/
  slack : D
  /-- Whether answers are listed by distance. -/
  sorted : Bool
  /-- The most leaves that are opened, if there is a cap. -/
  maxLeaves : Option Nat

namespace SearchOptions

/-- Exact and sorted answers from as many leaves as it takes. -/
def standard {D : Type} [Scalar D] : SearchOptions D := ⟨0, true, none⟩

/-- Refuses a slack that is not zero or more. -/
def validate {D : Type} [Scalar D] [ToString D] (options : SearchOptions D) : Except Error Unit :=
  if (0 : D) ≤ options.slack then .ok () else .error (.negativeSlack (toString options.slack))

end SearchOptions

end Proximity
