import Proximity.Collector.Nearest
import Proximity.Collector.Within
import Proximity.Options
import Proximity.Tree.Search

/-!
# Asking for neighbors

An index ready to be asked is a row of trees over one source, each with the points of it that
still count, and a metric. One collector is taken through all of them, and so is the number of
leaves that may be opened. Every query is built on `Index.find`.
-/

namespace Proximity

/-- One tree of an index. -/
structure Part (N : Type) where
  tree : Tree N
  /-- Whether a point of the tree counts. -/
  isLive : Nat → Bool

/-- Trees over one source, ready to be asked. -/
structure Index (N D : Type) where
  /-- The number of axes. -/
  dims : Nat
  /-- The number of points that count. -/
  size : Nat
  source : Source N
  metric : Metric N D
  parts : List (Part N)

namespace Index

variable {N D : Type}

/-- The index of one tree, all points of which count. -/
def ofTree (tree : Tree N) (source : Source N) (metric : Metric N D) : Index N D :=
  ⟨tree.dims, tree.size, source, metric, [⟨tree, fun _ => true⟩]⟩

variable [LT N] [DecidableLT N] [Distance D] [ToString D]

/-- Offers the points near a query to a collector. -/
def find {σ : Type} [Collector σ D] (index : Index N D) (state : σ) (query : List N)
    (options : SearchOptions D) : Except Error σ := do
  if query.length ≠ index.dims then throw (.queryDimensions query.length index.dims)
  options.validate
  let progress ← index.parts.foldlM
    (fun progress part =>
      Inquiry.run ⟨part.tree, index.source, index.metric, query, options.slack, part.isLive⟩
        progress)
    ⟨state, options.maxLeaves, true⟩
  return progress.state

/-- Refuses to look for no neighbors. -/
def requireSome (k : Nat) : Except Error Unit :=
  if k = 0 then .error .noNeighborsAsked else .ok ()

/-- Refuses a radius that is not zero or more. -/
def requireRadius (radius : D) : Except Error Unit :=
  if (0 : D) ≤ radius then .ok () else .error (.negativeRadius (toString radius))

/-- The neighbors of a collector as the options ask for them. -/
def listNearest (set : Nearest D) (options : SearchOptions D) : List (Neighbor D) :=
  if options.sorted then set.toSorted else set.kept

/-- The `k` nearest neighbors. -/
def nearestWith (index : Index N D) (query : List N) (k : Nat) (options : SearchOptions D) :
    Except Error (List (Neighbor D)) := do
  requireSome k
  let set ← index.find (Nearest.ofSize k) query options
  return listNearest set options

/-- The `k` nearest neighbors, exactly and in order. -/
def nearest (index : Index N D) (query : List N) (k : Nat) : Except Error (List (Neighbor D)) :=
  index.nearestWith query k .standard

/-- The `k` nearest neighbors within a radius. -/
def nearestWithin (index : Index N D) (query : List N) (k : Nat) (radius : D)
    (options : SearchOptions D) : Except Error (List (Neighbor D)) := do
  requireSome k
  requireRadius radius
  let set ← index.find (Nearest.upTo k (index.metric.ofRadius radius)) query options
  return listNearest set options

/-- All neighbors within a radius, in the order found unless sorted. -/
def within (index : Index N D) (query : List N) (radius : D) (options : SearchOptions D) :
    Except Error (List (Neighbor D)) := do
  requireRadius radius
  let set ← index.find (Within.ofRadius (index.metric.ofRadius radius)) query options
  return if options.sorted then set.toSorted else set.toList

/-- The `k` nearest neighbors of a coordinate with the given axes; more values are ignored. -/
def nearestTo (index : Index N D) (axes : Axes) (values : List N) (k : Nat) :
    Except Error (List (Neighbor D)) :=
  if values.length < axes.count then .error (.missingCoordinate 0 values.length)
  else index.nearest (values.take axes.count) k

/-- The `k` nearest neighbors of `count` points of a source from one on. -/
def nearestOfPoints (index : Index N D) (queries : Source N) (k : Nat)
    (options : SearchOptions D) : (count first : Nat) → Except Error (List (List (Neighbor D)))
  | 0, _ => .ok []
  | count + 1, first => do
    let query ← queries.point first
    let answer ← index.nearestWith query k options
    let rest ← index.nearestOfPoints queries k options count (first + 1)
    return answer :: rest

/-- The `k` nearest neighbors of every point of a source. -/
def nearestOfEach (index : Index N D) (queries : Source N) (k : Nat)
    (options : SearchOptions D) : Except Error (List (List (Neighbor D))) := do
  requireSome k
  index.nearestOfPoints queries k options queries.size 0

end Index

end Proximity
