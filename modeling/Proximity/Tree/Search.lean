import Proximity.Collector.Basic
import Proximity.Metric
import Proximity.Source
import Proximity.Tree.Basic

/-!
# Searching a tree

A search goes down to the query first and to the far side of a split afterwards, if that can hold
anything that still counts. How near it can be is known axis by axis: inside the box of the tree
each axis has a gap, and crossing a split changes the gap of one axis only.
-/

namespace Proximity

/-- What is asked of one tree. -/
structure Inquiry (N D : Type) where
  tree : Tree N
  source : Source N
  metric : Metric N D
  query : List N
  /-- How much nearer, in parts of its distance, a part of the tree must be to be looked at. -/
  slack : D
  /-- Whether a point of the tree counts. -/
  isLive : Nat → Bool

/-- How far a search has come. -/
structure Progress (σ : Type) where
  state : σ
  /-- How many more leaves may be opened, if there is a cap. -/
  leaves : Option Nat
  /-- Whether the search goes on. -/
  going : Bool

namespace Inquiry

variable {N D σ : Type} [LT N] [DecidableLT N] [Scalar D] [Collector σ D]

/-- Offers those of some points that count and are near enough, until no more are wanted. -/
def offerPoints (inquiry : Inquiry N D) : List Nat → σ → Except Error (σ × Bool)
  | [], state => .ok (state, true)
  | index :: rest, state =>
    if inquiry.isLive index then do
      let worst := Collector.worst state
      let distance ← inquiry.metric.distanceTo inquiry.query (inquiry.source.read index) worst
      if distance ≤ worst then
        let (state, more) := Collector.offer state distance index
        if more then inquiry.offerPoints rest state else .ok (state, false)
      else inquiry.offerPoints rest state
    else inquiry.offerPoints rest state

/-- Opens a leaf, or ends the search if no more may be opened. -/
def openLeaf (inquiry : Inquiry N D) (first last : Nat) (progress : Progress σ) :
    Except Error (Progress σ) :=
  if progress.leaves = some 0 then .ok { progress with going := false }
  else do
    let (state, going) ←
      inquiry.offerPoints (← inquiry.tree.points first last) progress.state
    return ⟨state, progress.leaves.map (· - 1), going⟩

/-- The distance that stands for a part of the tree when it is compared. Without slack it is the
sum of the gaps as it is. -/
def stretch (inquiry : Inquiry N D) (nearest : D) : D :=
  if inquiry.slack ≤ 0 then nearest else nearest * (1 + inquiry.slack)

/-- Whether a part of the tree at some distance is within reach. -/
def reaches (inquiry : Inquiry N D) (nearest : D) (state : σ) : Bool :=
  inquiry.stretch nearest ≤ Collector.worst state

/-- Whether a part of the tree at some distance is left out. -/
def passes (inquiry : Inquiry N D) (nearest : D) (state : σ) : Bool :=
  Collector.worst state < inquiry.stretch nearest

/-- Searches a part of the tree, given its gap on each axis and the sum of the gaps. -/
def visit (inquiry : Inquiry N D) :
    Node N → (gaps : List D) → (nearest : D) → Progress σ → Except Error (Progress σ)
  | .leaf first last, _, nearest, progress =>
    if !progress.going || inquiry.passes nearest progress.state then .ok progress
    else inquiry.openLeaf first last progress
  | .branch axis split left right, gaps, nearest, progress =>
    if !progress.going || inquiry.passes nearest progress.state then .ok progress
    else
      match inquiry.query[axis]?, inquiry.tree.box.sides[axis]? with
      | some v, some side =>
        if v < split then
          let gaps' := gaps.set axis (inquiry.metric.gap axis v ⟨split, side.high⟩)
          let nearest' := Scalar.total gaps'
          let far := inquiry.reaches nearest' progress.state
          do
            let progress ← inquiry.visit left gaps nearest progress
            if far then inquiry.visit right gaps' nearest' progress else .ok progress
        else
          let gaps' := gaps.set axis (inquiry.metric.gap axis v ⟨side.low, split⟩)
          let nearest' := Scalar.total gaps'
          let far := inquiry.reaches nearest' progress.state
          do
            let progress ← inquiry.visit right gaps nearest progress
            if far then inquiry.visit left gaps' nearest' progress else .ok progress
      | _, _ => .error (.missingAxis axis)

/-- The gaps between the query and the box of the tree. -/
def gaps (inquiry : Inquiry N D) : List D :=
  (inquiry.query.zip inquiry.tree.box.sides).zipIdx.map fun ((v, side), axis) =>
    inquiry.metric.gap axis v side

/-- Searches the whole tree. -/
def run (inquiry : Inquiry N D) (progress : Progress σ) : Except Error (Progress σ) :=
  inquiry.visit inquiry.tree.root inquiry.gaps (Scalar.total inquiry.gaps) progress

end Inquiry

end Proximity
