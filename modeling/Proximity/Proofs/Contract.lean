import Mathlib
import Proximity.Collector.Recorder
import Proximity.Proofs.Collector.Logged
import Proximity.Proofs.Ready

/-!
# The contract with a collector

Whatever a collector does with its state, as long as it always wants more and its worst distance
never grows, a query tells it of every point that could count to the end. It is offered no point
twice, none that does not count, and each with its distance.
-/

namespace Proximity

variable {N D σ : Type} [Coordinate N] [LawfulCoordinate N] [Storable N] [Distance D]
variable [LawfulDistance D] [ToString D] [Collector σ D]

namespace Index

variable {index : Index N D} {alive : List Nat} {query : List N} {options : SearchOptions D}
variable {inv : σ → Prop} {start : σ}

/-- A query that goes through all trees has a log of all points that count, or it is lost. -/
theorem Ready.find_records (h : index.Ready alive) (hquery : query.length = index.dims)
    (hbounds : index.metric.Bounds query) (hthorough : index.Thorough query options)
    (hsteady : Steady inv) (hstart : inv start) :
    (∃ logged : Logged σ D,
      index.find (Logged.start start : Logged σ D) query options = .ok logged ∧
      index.find start query options = .ok logged.state ∧
      logged.Records (index.distance query) (index.reach query options) inv start alive) ∨
    index.Lost (index.find start query options) := by
  obtain ⟨meant, rfl, hmeant, hperm⟩ := h.exists_meant
  have hbegun : (Logged.start start : Logged σ D).Records (meant.distance query)
      (meant.reach query options) inv start [] :=
    ⟨hstart, .none, nofun, [], .nil, nofun⟩
  obtain ⟨logged, hfind, hrecords⟩ := find_reaches (hmeant.sound hquery hbounds)
    (thorough_stored.mp hthorough) (hsteady.tracks start) hbegun
  have hboth := meant.stored.find_logged start query options
  rcases hmeant.find_stored (Logged.start start : Logged σ D) query options with
    hsame | ⟨hover, first, hlost⟩
  · rw [hsame, hfind] at hboth
    refine .inl ⟨logged, hsame.trans hfind, ?_, (hsteady.tracks start).perm hperm hrecords⟩
    generalize meant.stored.find start query options = result at hboth ⊢
    cases hboth with
    | ok hstate => exact congrArg Except.ok hstate.symm
  · rw [hlost] at hboth
    generalize meant.stored.find start query options = result at hboth ⊢
    cases hboth with
    | error => exact .inr ⟨hover, first, rfl⟩

/-- An exact query offers points that count, none of them twice, each with its distance and while
that still counts. Every point that counts and was never offered is beyond the last worst distance
of the collector. The query can only be lost, in a tree over more points than a word can count. -/
theorem Ready.contract (h : index.Ready alive) (hquery : query.length = index.dims)
    (hbounds : index.metric.Bounds query) (hvalid : 0 ≤ options.slack) (hexact : options.slack ≤ 0)
    (hleaves : options.maxLeaves = none) (hsteady : Steady inv) (hstart : inv start) :
    (∃ final log, index.find (Logged.start start : Logged σ D) query options = .ok ⟨final, log⟩ ∧
      index.find start query options = .ok final ∧ Offers start log final ∧
      (log.map Neighbor.index).Nodup ∧
      (∀ neighbor ∈ log, neighbor.index ∈ alive ∧
        neighbor.distance = index.metric.distance query (index.source.coordinates neighbor.index)) ∧
      ∀ i ∈ alive, i ∉ log.map Neighbor.index →
        ¬ index.metric.distance query (index.source.coordinates i) ≤ Collector.worst final ∧
        (Collector.worst final ≤ Collector.worst final →
          Collector.worst final < index.metric.distance query (index.source.coordinates i))) ∨
    index.Lost (index.find start query options) := by
  obtain ⟨meant, rfl, hmeant, hperm⟩ := h.exists_meant
  have hsound := hmeant.sound hquery hbounds
  have hthorough := thorough_stored.mpr (hsound.thorough hvalid hexact hleaves)
  refine (h.find_records hquery hbounds hthorough hsteady hstart).imp_left ?_
  rintro ⟨⟨final, log⟩, hlogged, hfind, hrecords⟩
  refine ⟨final, log, hlogged, hfind, hrecords.offers, hrecords.nodup h.nodup, ?_, ?_⟩
  · exact fun neighbor hneighbor => ⟨hrecords.mem_seen hneighbor, hrecords.exact _ hneighbor⟩
  · intro i hi hnever
    have hout : ¬ meant.distance query i ≤ Collector.worst final := by
      have hfar := hrecords.not_reach_le hi hnever
      rwa [reach, options.stretch_eq hexact] at hfar
    have hself := distance_self hsound (hperm.mem_iff.mpr hi)
    exact ⟨hout, fun hworst => Comparison.lt_of_not_le hself hworst hout⟩

end Index

omit [LawfulDistance D] [ToString D] in
/-- A record that no number of offers ends is steady, whether it shrinks or not. -/
theorem Recorder.steady [Comparison D] : Steady fun record : Recorder D => record.limit = none where
  keeps hlimit _ := hlimit
  more {record distance index} hlimit _ := by
    show record.limit.all _ = true
    rw [show record.limit = none from hlimit, Option.all_none]
  not_lt {record distance index} _ hle := by
    show ¬ record.worst < if record.shrinks then distance else record.worst
    split
    · exact Comparison.not_lt hle
    · exact Comparison.irrefl

/-- A search of the forest over four bytes offers the one that is alive in it. -/
theorem contract_bytes : ∃ index, byteForest.toIndex byteSource = .ok index ∧
    index.Ready ((List.range byteSource.size).filter (byteForest.contains ·)) ∧
    index.metric.Bounds [0] ∧ ∃ final log,
      index.find (Logged.start (Recorder.start Distance.infinity true none) :
        Logged (Recorder Binary64) Binary64) [0] .standard = .ok ⟨final, log⟩ ∧
      (log.map Neighbor.index).Nodup ∧
      ∀ i ∈ [1], i ∉ log.map Neighbor.index → ¬ index.metric.distance [0]
        (index.source.coordinates i) ≤ Collector.worst final := by
  have hserves := history_byteForest.serves finite_byteSource
  have hindex := hserves.toIndex_eq
  have hready := Index.Ready.forest history_byteForest.kept finite_byteSource hindex
  have hzero : (0 : Binary64) ≤ (SearchOptions.standard : SearchOptions Binary64).slack :=
    LawfulDistance.zero_le
  have hstart : (Recorder.start Distance.infinity true none : Recorder Binary64).limit = none := rfl
  obtain ⟨final, log, hfind, -, -, hnodup, -, hfar⟩ :=
    (hready.contract rfl bounds_squaredEuclidean_byte hzero hzero rfl Recorder.steady
      hstart).resolve_right fun hlost => hready.not_overfull (by decide) hlost.1
  refine ⟨_, hindex, hready, bounds_squaredEuclidean_byte, final, log, hfind, hnodup, ?_⟩
  intro i hi hnever
  obtain rfl := List.mem_singleton.mp hi
  exact (hfar 1 (by decide) hnever).1

end Proximity
