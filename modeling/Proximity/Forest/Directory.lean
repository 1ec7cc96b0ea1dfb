/-!
# Which tree holds a point

A directory says for each point in which slot of a forest it lives, if it lives at all. It reaches
as far as the largest point that was ever put into it, also after that point is gone.
-/

namespace Proximity

/-- The slot of each point. -/
structure Directory where
  slots : Array (Option Nat)
  deriving DecidableEq, Repr

namespace Directory

/-- The directory without points. -/
def empty : Directory := ⟨#[]⟩

/-- How many points the directory reaches over. -/
def size (directory : Directory) : Nat := directory.slots.size

/-- The slot of a point. -/
def slot? (directory : Directory) (index : Nat) : Option Nat := (directory.slots[index]?).join

/-- Whether a point lives in some slot. -/
def contains (directory : Directory) (index : Nat) : Bool := (directory.slot? index).isSome

/-- The directory grown to reach a point. -/
def reach (directory : Directory) (index : Nat) : Directory :=
  ⟨directory.slots ++ Array.replicate (index + 1 - directory.slots.size) none⟩

/-- The directory with a point in a slot. -/
def put (directory : Directory) (slot index : Nat) : Directory :=
  ⟨(directory.reach index).slots.setIfInBounds index (some slot)⟩

/-- The directory with some points in a slot. -/
def putAll (directory : Directory) (slot : Nat) (points : List Nat) : Directory :=
  points.foldl (put · slot) directory

/-- The directory without a point. -/
def erase (directory : Directory) (index : Nat) : Directory :=
  ⟨directory.slots.setIfInBounds index none⟩

end Directory

end Proximity
