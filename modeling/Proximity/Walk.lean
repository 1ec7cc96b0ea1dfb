import Proximity.Index
import Proximity.Tree.Stepwise

/-!
# Searching step by step

The search of a tree without recursion, over its table: each step takes one part of the tree from
a stack, passes it or opens it, and puts the children of a branch on the stack, the nearer one on
top. Everything a step reaches for by number, a cell, a value of the query, a gap, a side of the
box or a range of points, may not be there, and then the step fails.
-/

namespace Proximity

/-- A part of a tree that is still to be searched. -/
structure Frame (D : Type) where
  place : Nat
  /-- Its gap to the query on each axis. -/
  gaps : List D
  /-- The sum of its gaps. -/
  nearest : D

/-- A search of a tree on its way. -/
structure Walk (σ D : Type) where
  frames : List (Frame D)
  /-- The places taken from the stack, the last one first. -/
  popped : List Nat
  progress : Progress σ

namespace Inquiry

variable {N D σ : Type} [LT N] [DecidableLT N] [Scalar D] [Collector σ D]

/-- The value of the query and the side of the tree's box on an axis. -/
def axis (inquiry : Inquiry N D) (axis : Nat) : Except Error (N × Side N) :=
  match inquiry.query[axis]?, inquiry.tree.box.sides[axis]? with
  | some v, some side => .ok (v, side)
  | _, _ => .error (.missingAxis axis)

/-- The gaps between the query and the box of the tree, axis by axis. -/
def measureGaps (inquiry : Inquiry N D) : Except Error (List D) :=
  (List.range inquiry.tree.dims).mapM fun axis => do
    let (v, side) ← inquiry.axis axis
    return inquiry.metric.gap axis v side

/-- The gaps with the one on an axis changed. -/
def changeGap (gaps : List D) (axis : Nat) (gap : D) : Except Error (List D) :=
  if axis < gaps.length then .ok (gaps.set axis gap) else .error (.missingAxis axis)

/-- Searches the part of the tree on top of the stack. -/
def walkStep (inquiry : Inquiry N D) (table : Table (Cell N)) (walk : Walk σ D) :
    Except Error (Walk σ D) :=
  match walk.frames with
  | [] => .ok walk
  | ⟨place, gaps, nearest⟩ :: frames =>
    let popped := place :: walk.popped
    if inquiry.passes nearest walk.progress.state then .ok ⟨frames, popped, walk.progress⟩
    else
      match table.get? place with
      | none => .error (.missingNode place)
      | some (.leaf first last) => do
        let progress ← inquiry.openLeaf first last walk.progress
        return ⟨if progress.going then frames else [], popped, progress⟩
      | some (.branch axis split left right) => do
        let (v, side) ← inquiry.axis axis
        let (near, far, beyond) : Nat × Nat × Side N :=
          if v < split then (left, right, ⟨split, side.high⟩)
          else (right, left, ⟨side.low, split⟩)
        let gaps' ← changeGap gaps axis (inquiry.metric.gap axis v beyond)
        let nearest' := Scalar.total gaps'
        let frames :=
          if inquiry.reaches nearest' walk.progress.state then ⟨far, gaps', nearest'⟩ :: frames
          else frames
        return ⟨⟨near, gaps, nearest⟩ :: frames, popped, walk.progress⟩

/-- Searches the whole tree, in as many steps as its table has cells. -/
def walk (inquiry : Inquiry N D) (table : Table (Cell N)) (progress : Progress σ) :
    Except Error (Walk σ D) := do
  let gaps ← inquiry.measureGaps
  steps (inquiry.walkStep table) table.size ⟨[⟨0, gaps, Scalar.total gaps⟩], [], progress⟩

end Inquiry

namespace Index

variable {N D σ : Type} [LT N] [DecidableLT N] [Scalar D] [Collector σ D]

/-- Searches some trees over their tables one after the other, until no more points are wanted.
Gives the search of each tree, and how far they have come together. -/
def walks (index : Index N D) (query : List N) (slack : D) :
    List (Part N × Table (Cell N)) → Progress σ → Except Error (List (Walk σ D) × Progress σ)
  | [], progress => .ok ([], progress)
  | (part, table) :: rest, progress => do
    let walk ← Inquiry.walk
      ⟨part.tree, index.source, index.metric, query, slack, part.isLive⟩ table progress
    if walk.progress.going then
      let (walks, progress) ← index.walks query slack rest walk.progress
      return (walk :: walks, progress)
    else return ([walk], walk.progress)

end Index

end Proximity
