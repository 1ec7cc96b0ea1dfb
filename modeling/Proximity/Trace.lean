import Proximity.Index

/-!
# Searches that tell what they do

The same searches beside a record of the leaves that were opened, each with the neighbors that were
offered of it, in order. A search that fails leaves the record of what it did until then.
-/

namespace Proximity

/-- A leaf that was opened, and what was offered of its points, in order. -/
structure Opening (D : Type) where
  first : Nat
  last : Nat
  offers : List (Neighbor D)

/-- What a search gives, and the leaves that it opened, in order. -/
structure Traced (D α : Type) where
  openings : List (Opening D)
  result : Except Error α

namespace Traced

variable {D α β : Type}

/-- A result for which no leaf was opened. -/
def done (result : Except Error α) : Traced D α := ⟨[], result⟩

/-- A search that goes on where another succeeded. -/
def andThen (first : Traced D α) (next : α → Traced D β) : Traced D β :=
  match first.result with
  | .error e => ⟨first.openings, .error e⟩
  | .ok a => ⟨first.openings ++ (next a).openings, (next a).result⟩

/-- All that was offered, in order. -/
def offers (traced : Traced D α) : List (Neighbor D) := traced.openings.flatMap Opening.offers

end Traced

namespace Inquiry

variable {N D σ : Type} [LT N] [DecidableLT N] [Scalar D] [Collector σ D]

/-- Offers points of a leaf, with what was offered. -/
def traceOffers (inquiry : Inquiry N D) :
    List Nat → σ → List (Neighbor D) × Except Error (σ × Bool)
  | [], state => ([], .ok (state, true))
  | index :: rest, state =>
    if inquiry.isLive index then
      match inquiry.metric.distanceTo inquiry.query (inquiry.source.read index)
          (Collector.worst state) with
      | .error e => ([], .error e)
      | .ok distance =>
        if distance ≤ Collector.worst state then
          let (state, more) := Collector.offer state distance index
          if more then
            let (offers, result) := inquiry.traceOffers rest state
            (⟨index, distance⟩ :: offers, result)
          else ([⟨index, distance⟩], .ok (state, false))
        else inquiry.traceOffers rest state
    else inquiry.traceOffers rest state

/-- Opens a leaf, with a record of it, or ends the search if no more may be opened. -/
def traceLeaf (inquiry : Inquiry N D) (first last : Nat) (progress : Progress σ) :
    Traced D (Progress σ) :=
  if progress.leaves = some 0 then .done (.ok { progress with going := false })
  else
    match inquiry.tree.points first last with
    | .error e => ⟨[⟨first, last, []⟩], .error e⟩
    | .ok points =>
      let (offers, result) := inquiry.traceOffers points progress.state
      ⟨[⟨first, last, offers⟩], do
        let (state, going) ← result
        return ⟨state, progress.leaves.map (· - 1), going⟩⟩

/-- Searches a part of the tree, with a record of the leaves that are opened. -/
def trace (inquiry : Inquiry N D) :
    Node N → (gaps : List D) → (nearest : D) → Progress σ → Traced D (Progress σ)
  | .leaf first last, _, nearest, progress =>
    if !progress.going || inquiry.passes nearest progress.state then .done (.ok progress)
    else inquiry.traceLeaf first last progress
  | .branch axis split left right, gaps, nearest, progress =>
    if !progress.going || inquiry.passes nearest progress.state then .done (.ok progress)
    else
      match inquiry.query[axis]?, inquiry.tree.box.sides[axis]? with
      | some v, some side =>
        if v < split then
          let gaps' := gaps.set axis (inquiry.metric.gap axis v ⟨split, side.high⟩)
          let nearest' := Scalar.total gaps'
          let far := inquiry.reaches nearest' progress.state
          (inquiry.trace left gaps nearest progress).andThen fun progress =>
            if far then inquiry.trace right gaps' nearest' progress else .done (.ok progress)
        else
          let gaps' := gaps.set axis (inquiry.metric.gap axis v ⟨side.low, split⟩)
          let nearest' := Scalar.total gaps'
          let far := inquiry.reaches nearest' progress.state
          (inquiry.trace right gaps nearest progress).andThen fun progress =>
            if far then inquiry.trace left gaps' nearest' progress else .done (.ok progress)
      | _, _ => .done (.error (.missingAxis axis))

end Inquiry

namespace Index

variable {N D σ : Type} [LT N] [DecidableLT N] [Distance D] [ToString D] [Collector σ D]

/-- Searches some trees of an index, one after the other, with a record of the leaves that are
opened. -/
def traceParts (index : Index N D) (query : List N) (slack : D) :
    List (Part N) → Progress σ → Traced D (Progress σ)
  | [], progress => .done (.ok progress)
  | part :: rest, progress =>
    let inquiry : Inquiry N D :=
      ⟨part.tree, index.source, index.metric, query, slack, part.isLive⟩
    (inquiry.trace part.tree.root inquiry.gaps (Scalar.total inquiry.gaps) progress).andThen
      (index.traceParts query slack rest)

/-- Offers the points near a query to a collector, with a record of the leaves that are opened. -/
def trace (index : Index N D) (state : σ) (query : List N) (options : SearchOptions D) :
    Traced D σ :=
  if query.length ≠ index.dims then .done (.error (.queryDimensions query.length index.dims))
  else
    match options.validate with
    | .error e => .done (.error e)
    | .ok _ =>
      (index.traceParts query options.slack index.parts ⟨state, options.maxLeaves, true⟩).andThen
        fun progress => .done (.ok progress.state)

end Index

end Proximity
