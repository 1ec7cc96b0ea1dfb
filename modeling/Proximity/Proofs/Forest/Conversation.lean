import Mathlib
import Proximity.Proofs.Forest.Mirrored

/-!
# Requests and replies

A conversation with a forest is a row of requests, each over the source as it is by then. Forests
with the same points in every slot, which mirror each other, give the same replies to every
conversation, step by step, those that refuse a request or lose a query included. Only under a
metric that tells apart what is numerically equal, and over more points than a word can count, may
one of them lose a query that the other answers.
-/

namespace Proximity

namespace Forest

/-- What a forest is asked to do or to say. -/
inductive Request (N D : Type) where
  | insert (index : Nat)
  | remove (index : Nat)
  | contains (index : Nat)
  | size
  | sizes
  | nearest (query : List N) (k : Nat)
  | nearestWithin (query : List N) (k : Nat) (radius : D)
  | within (query : List N) (radius : D)

/-- What it says. -/
inductive Reply (D : Type) where
  | inserted (result : Except Error Unit)
  | flag (value : Bool)
  | number (count : Nat)
  | numbers (counts : List Nat)
  | neighbors (result : Except Error (List (Neighbor D)))

/-- The query of a request. -/
def Request.query? {N D : Type} : Request N D → Option (List N)
  | .nearest query _ | .nearestWithin query _ _ | .within query _ => some query
  | _ => none

/-- Whether a query failed at a leaf whose end is lost. -/
def Reply.IsLost {D : Type} (reply : Reply D) : Prop :=
  ∃ first, reply = .neighbors (.error (.missingPoints first 0))

/-- Whether a reply is to a query that failed at a leaf whose end is lost, over more points than a
word can count and under a metric that tells apart what is numerically equal. -/
def LostAt {N D : Type} [Coordinate N] (metric : Metric N D)
    (requests : List (Source N × Request N D)) (replies : List (Reply D)) (step : Nat) : Prop :=
  ∃ source request query reply, requests[step]? = some (source, request) ∧
    request.query? = some query ∧ maxWord32 < source.size ∧ ¬ metric.Numeric query ∧
    replies[step]? = some reply ∧ reply.IsLost

section Responding

variable {N D : Type} [Coordinate N] [Distance D] [ToString D]

/-- The forest after a request over a source, and its reply. Queries are exact and sorted. -/
def respond (source : Source N) (forest : Forest N D) : Request N D → Forest N D × Reply D
  | .insert index =>
    match forest.insert source index with
    | .ok next => (next, .inserted (.ok ()))
    | .error e => (forest, .inserted (.error e))
  | .remove index => ((forest.remove index).1, .flag (forest.remove index).2)
  | .contains index => (forest, .flag (forest.contains index))
  | .size => (forest, .number forest.size)
  | .sizes => (forest, .numbers forest.sizes)
  | .nearest query k =>
    (forest, .neighbors (forest.toIndex source >>= fun index => index.nearest query k))
  | .nearestWithin query k radius =>
    (forest, .neighbors
      (forest.toIndex source >>= fun index => index.nearestWithin query k radius .standard))
  | .within query radius =>
    (forest, .neighbors
      (forest.toIndex source >>= fun index => index.within query radius .standard))

/-- The replies to a row of requests. -/
def converse : List (Source N × Request N D) → Forest N D → List (Reply D)
  | [], _ => []
  | (source, request) :: rest, forest =>
    (forest.respond source request).2 :: converse rest (forest.respond source request).1

end Responding

variable {N D : Type} [Coordinate N] [LawfulCoordinate N] [Distance D] [ToString D]
variable {forest other : Forest N D} {source : Source N}

/-- A forest can still be asked after any request. -/
theorem Serves.respond (h : forest.Serves source) (hfinite : source.Finite)
    (request : Request N D) : (forest.respond source request).1.Serves source := by
  cases request with
  | insert index =>
    simp only [Forest.respond]
    split
    · next hinsert => exact h.insert hfinite hinsert
    · exact h
  | remove index => exact h.remove index
  | _ => exact h

variable [LawfulDistance D]

omit [LawfulCoordinate N] [ToString D] [LawfulDistance D] in
/-- Over a source that both serve, what is meant of forests that are twins matches for every query
that the metric bounds, if it has as many axes. -/
theorem Twins.exists_matches (h : forest.Twins other) (hserves : forest.Serves source)
    (hserves' : other.Serves source) {query : List N}
    (hmetric : query.length = source.dims → forest.metric.Bounds query) :
    ∃ meant meant' : Index N D, forest.toIndex source = .ok meant.stored ∧ meant.Meant ∧
      other.toIndex source = .ok meant'.stored ∧ meant'.Meant ∧ meant.Matches meant' query := by
  obtain ⟨meant, hstored, hmeant⟩ := hserves.exists_meant
  obtain ⟨meant', hstored', hmeant'⟩ := hserves'.exists_meant
  have hdims : forest.dims = meant.dims := congrArg Index.dims hstored
  have hdims' : other.dims = meant'.dims := congrArg Index.dims hstored'
  have hsame : forest.metric = meant.metric := congrArg Index.metric hstored
  have hsame' : other.metric = meant'.metric := congrArg Index.metric hstored'
  have hneighbors : other.neighbors source query = forest.neighbors source query := by
    rw [neighbors, neighbors, h.metric_eq, h.contains_eq hserves.sound hserves'.sound]
  have hperm := (hserves.neighbors_perm query).trans
    (hneighbors ▸ (hserves'.neighbors_perm query).symm)
  rw [hstored, hstored', Index.neighbors_stored, Index.neighbors_stored] at hperm
  refine ⟨meant, meant', hstored ▸ hserves.toIndex_eq, hmeant, hstored' ▸ hserves'.toIndex_eq,
    hmeant', ?_, ?_, ?_, ?_, hperm⟩
  · rw [← hdims, ← hdims', h.dims_eq]
  · rw [← hsame, ← hsame', h.metric_eq]
  · intro hlength
    have hlength' := hlength.trans (hdims.symm.trans hserves.dims_eq.symm)
    exact hmeant.sound hlength (hsame ▸ hmetric hlength')
  · intro hlength
    have hlength' := hlength.trans (hdims'.symm.trans hserves'.dims_eq.symm)
    exact hmeant'.sound hlength (hsame' ▸ h.metric_eq ▸ hmetric hlength')

/-- Twins that mirror each other reply alike to a query that is answered alike where it is not lost,
and lost alike, or one of them loses it under a metric that is not numeric. -/
theorem Twins.ask (h : forest.Twins other) (hmirrors : forest.Mirrors source other)
    (hserves : forest.Serves source) (hserves' : other.Serves source) {query : List N}
    (hmetric : query.length = source.dims → forest.metric.Bounds query)
    {answer : Index N D → Except Error (List (Neighbor D))}
    (hstored : ∀ index, index.Meant → answer index.stored = answer index ∨
      index.stored.Lost (answer index.stored))
    (hsame : ∀ index index' : Index N D, index.Matches index' query →
      answer index' = answer index)
    (hboth : ∀ index index' : Index N D, index.Abreast index' query →
      Outcome.Both (fun _ _ => True) (answer index) (answer index')) :
    Reply.neighbors (other.toIndex source >>= answer) =
        .neighbors (forest.toIndex source >>= answer) ∨
      maxWord32 < source.size ∧ ¬ forest.metric.Numeric query ∧
        ((Reply.neighbors (forest.toIndex source >>= answer)).IsLost ∨
          (Reply.neighbors (other.toIndex source >>= answer)).IsLost) := by
  obtain ⟨meant, meant', hindex, hmeant, hindex', hmeant', hmatches⟩ :=
    h.exists_matches hserves hserves' hmetric
  have hlost {forest : Forest N D} {index : Index N D} (hserves : forest.Serves source)
      (hindex : forest.toIndex source = .ok index) (hlost : index.Lost (answer index)) :
      maxWord32 < source.size ∧ ∃ first, answer index = .error (.missingPoints first 0) := by
    obtain ⟨hover, hfailed⟩ := hlost
    obtain rfl := Except.ok.inj (hserves.toIndex_eq.symm.trans hindex)
    exact ⟨Nat.lt_of_not_le fun hwords => hserves.not_overfull hwords hover, hfailed⟩
  have hnumeric (hnumeric : forest.metric.Numeric query) :
      Outcome.Both (fun _ _ => True) (answer meant.stored) (answer meant'.stored) := by
    have habreast := hboth _ _ (hmirrors.abreast h hserves hmetric hnumeric)
    rwa [Except.ok.inj (hserves.toIndex_eq.symm.trans hindex),
      Except.ok.inj (hserves'.toIndex_eq.symm.trans hindex')] at habreast
  rw [hindex, hindex', Outcome.ok_bind, Outcome.ok_bind]
  by_cases hkept : answer meant.stored = answer meant ∧ answer meant'.stored = answer meant'
  · rw [hkept.1, hkept.2, hsame meant meant' hmatches]
    exact .inl rfl
  · obtain ⟨hmany, first, hgone⟩ : maxWord32 < source.size ∧ ∃ first,
        answer meant.stored = .error (.missingPoints first 0) ∨
          answer meant'.stored = .error (.missingPoints first 0) := by
      rcases hstored meant hmeant with hsame | hgone
      · have hgone' := (hstored meant' hmeant').resolve_left fun hsame' => hkept ⟨hsame, hsame'⟩
        exact (hlost hserves' hindex' hgone').imp_right fun ⟨first, hgone⟩ => ⟨first, .inr hgone⟩
      · exact (hlost hserves hindex hgone).imp_right fun ⟨first, hgone⟩ => ⟨first, .inl hgone⟩
    by_cases hmetric : forest.metric.Numeric query
    · exact .inl (congrArg Reply.neighbors ((hnumeric hmetric).eq_of_error hgone))
    · exact .inr ⟨hmany, hmetric, hgone.imp (⟨first, congrArg Reply.neighbors ·⟩)
        (⟨first, congrArg Reply.neighbors ·⟩)⟩

omit [LawfulDistance D] in
/-- Twins that mirror each other do so after every request. -/
theorem Mirrors.respond (h : forest.Mirrors source other) (htwins : forest.Twins other)
    (hserves : forest.Serves source) (hserves' : other.Serves source) (hfinite : source.Finite)
    (request : Request N D) :
    (forest.respond source request).1.Mirrors source (other.respond source request).1 := by
  cases request with
  | insert index =>
    have hboth := htwins.insert hserves hserves' hfinite index
    have hinsert (next next' : Forest N D) (hnext : forest.insert source index = .ok next)
        (hnext' : other.insert source index = .ok next') : next.Mirrors source next' :=
      h.insert htwins hserves hfinite hnext hnext'
    simp only [Forest.respond]
    generalize forest.insert source index = result at hboth hinsert
    generalize other.insert source index = result' at hboth hinsert
    cases hboth with
    | ok _ => exact hinsert _ _ rfl rfl
    | error e => exact h
  | remove index => exact h.remove hserves.sound hserves'.sound index
  | _ => exact h

/-- Twins that mirror each other are twins after a request, and give one reply to it, or one of them
loses it under a metric that is not numeric. -/
theorem Twins.respond (h : forest.Twins other) (hmirrors : forest.Mirrors source other)
    (hserves : forest.Serves source) (hserves' : other.Serves source) (hfinite : source.Finite)
    {request : Request N D} (hmetric : ∀ query, request.query? = some query →
      query.length = source.dims → forest.metric.Bounds query) :
    (forest.respond source request).1.Twins (other.respond source request).1 ∧
      ((other.respond source request).2 = (forest.respond source request).2 ∨
        ∃ query, request.query? = some query ∧ maxWord32 < source.size ∧
          ¬ forest.metric.Numeric query ∧ ((forest.respond source request).2.IsLost ∨
            (other.respond source request).2.IsLost)) := by
  have hcontains := h.contains_eq hserves.sound hserves'.sound
  cases request with
  | insert index =>
    have hboth := h.insert hserves hserves' hfinite index
    simp only [Forest.respond]
    generalize forest.insert source index = result at hboth
    generalize other.insert source index = result' at hboth
    cases hboth with
    | ok htwins => exact ⟨htwins, .inl rfl⟩
    | error e => exact ⟨h, .inl rfl⟩
  | remove index =>
    refine ⟨h.remove hserves.sound hserves'.sound index, .inl ?_⟩
    simp only [Forest.respond, hserves.sound.remove_snd, hserves'.sound.remove_snd, hcontains]
  | contains index => exact ⟨h, .inl (by simp only [Forest.respond, hcontains])⟩
  | size =>
    exact ⟨h, .inl (by simp only [Forest.respond, h.size_eq hserves.sound hserves'.sound])⟩
  | sizes =>
    exact ⟨h, .inl (by simp only [Forest.respond, h.sizes_eq hserves.sound hserves'.sound])⟩
  | nearest query k =>
    exact ⟨h, (h.ask hmirrors hserves hserves' (hmetric query rfl)
      (fun index hmeant => hmeant.nearestWith_stored query k .standard)
      (fun index index' hmatches => hmatches.nearest_eq k)
      fun index index' habreast => habreast.nearest k).imp_right (⟨query, rfl, ·⟩)⟩
  | nearestWithin query k radius =>
    exact ⟨h, (h.ask hmirrors hserves hserves' (hmetric query rfl)
      (fun index hmeant => hmeant.nearestWithin_stored query k radius .standard)
      (fun index index' hmatches => hmatches.nearestWithin_eq k radius)
      fun index index' habreast => habreast.nearestWithin k radius).imp_right (⟨query, rfl, ·⟩)⟩
  | within query radius =>
    exact ⟨h, (h.ask hmirrors hserves hserves' (hmetric query rfl)
      (fun index hmeant => hmeant.within_stored query radius .standard)
      (fun index index' hmatches => hmatches.within_eq radius)
      fun index index' habreast => habreast.within radius).imp_right (⟨query, rfl, ·⟩)⟩

omit [LawfulDistance D] [LawfulCoordinate N] in
/-- No request changes the metric of a forest. -/
theorem metric_respond (source : Source N) (forest : Forest N D) (request : Request N D)
    (hsound : forest.Sound) : (forest.respond source request).1.metric = forest.metric := by
  cases request with
  | insert index =>
    simp only [Forest.respond]
    split
    · next hinsert =>
      obtain ⟨tree, -, rfl⟩ := insert_eq_ok hinsert
      rfl
    · rfl
  | remove index =>
    simp only [Forest.respond]
    rcases hsound.remove_cases index with ⟨-, heq⟩ | ⟨slot, plot, -, -, heq⟩ <;> rw [heq]
    rfl
  | _ => rfl

/-- Twins that mirror each other give the same replies to every conversation over a source that only
grows, but to queries that one of them loses under a metric that is not numeric. -/
theorem Twins.converse (h : forest.Twins other) (hmirrors : forest.Mirrors source other)
    (hserves : forest.Serves source) (hserves' : other.Serves source)
    {requests : List (Source N × Request N D)}
    (hgrows : List.IsChain (fun smaller larger => larger.Extends smaller)
      (source :: requests.map Prod.fst))
    (hfinite : ∀ pair ∈ requests, pair.1.Finite)
    (hmetric : ∀ pair ∈ requests, ∀ query, pair.2.query? = some query →
      query.length = source.dims → forest.metric.Bounds query) (step : Nat) :
    (other.converse requests)[step]? = (forest.converse requests)[step]? ∨
      LostAt forest.metric requests (forest.converse requests) step ∨
      LostAt forest.metric requests (other.converse requests) step := by
  induction requests generalizing forest other source step with
  | nil => exact .inl rfl
  | cons pair requests ih =>
    obtain ⟨view, request⟩ := pair
    obtain ⟨hext, hgrows⟩ := List.isChain_cons_cons.mp hgrows
    obtain ⟨hview, hfinite⟩ := List.forall_mem_cons.mp hfinite
    obtain ⟨hasked, hmetric⟩ := List.forall_mem_cons.mp hmetric
    rw [← hext.dims_eq] at hasked hmetric
    have hmirrors := hmirrors.grown hext hserves hserves'
    have hserves := hserves.grown hext
    have hserves' := hserves'.grown hext
    obtain ⟨htwins, hreply⟩ := h.respond hmirrors hserves hserves' hview hasked
    rw [Forest.converse, Forest.converse]
    cases step with
    | zero =>
      refine hreply.imp (congrArg some) fun ⟨query, hquery, hmany, hnumeric, hlost⟩ => ?_
      exact hlost.imp (⟨view, request, query, _, rfl, hquery, hmany, hnumeric, rfl, ·⟩)
        (⟨view, request, query, _, rfl, hquery, hmany, hnumeric, rfl, ·⟩)
    | succ step =>
      have hsame := metric_respond view forest request hserves.sound
      have hrest := ih htwins (hmirrors.respond h hserves hserves' hview request)
        (hserves.respond hview request) (hserves'.respond hview request) hgrows hfinite
        (hsame.symm ▸ hmetric) step
      rwa [hsame] at hrest

end Forest

end Proximity
