import Mathlib
import Proximity.Index
import Proximity.Proofs.Tree.Search

/-!
# What a search offers, and when

A log beside a collector changes nothing about a search: it takes the same way, and what is left
when the log is dropped is the search without it. So whatever a collector does with its state, the
log tells what it was offered. If its worst distance never grows, then what was left out stays out
of reach, and all points that were seen are in the log or beyond the last worst distance.
-/

namespace Proximity

variable {N D σ : Type}

/-- A collector with a log of what it was offered. -/
structure Logged (σ D : Type) where
  state : σ
  /-- The neighbors offered, the last one first. -/
  log : List (Neighbor D)

namespace Logged

/-- A log that is still empty. -/
def start (state : σ) : Logged σ D := ⟨state, []⟩

instance [Collector σ D] : Collector (Logged σ D) D where
  worst logged := Collector.worst logged.state
  offer logged distance index :=
    let (state, more) := Collector.offer logged.state distance index
    (⟨state, ⟨index, distance⟩ :: logged.log⟩, more)

/-- Whether a search has come as far as one with a log. -/
def Shows (logged : Progress (Logged σ D)) (progress : Progress σ) : Prop :=
  progress = ⟨logged.state.state, logged.leaves, logged.going⟩

end Logged

namespace Inquiry

variable [LT N] [DecidableLT N] [Scalar D] [Collector σ D] (inquiry : Inquiry N D)

omit [LT N] [DecidableLT N] in
/-- The same points are offered with a log and without. -/
theorem offerPoints_logged (points : List Nat) (logged : Logged σ D) :
    Outcome.Both (fun result result' => result' = (result.1.state, result.2))
      (inquiry.offerPoints points logged) (inquiry.offerPoints points logged.state) := by
  induction points generalizing logged with
  | nil => exact .ok rfl
  | cons index points ih =>
    rw [offerPoints, offerPoints]
    split
    · refine Outcome.Both.bind_same _ fun distance => ?_
      by_cases hle : distance ≤ Collector.worst logged.state
      · rw [if_pos hle, if_pos (show distance ≤ Collector.worst logged from hle)]
        have hsame : (Collector.offer logged distance index).2 =
          (Collector.offer logged.state distance index).2 := rfl
        simp only [hsame]
        split
        · exact ih (Collector.offer logged distance index).1
        · exact .ok rfl
      · rw [if_neg hle, if_neg (show ¬ distance ≤ Collector.worst logged from hle)]
        exact ih logged
    · exact ih logged

variable {inquiry} {logged : Progress (Logged σ D)} {progress : Progress σ}

omit [LT N] [DecidableLT N] in
/-- Opening a leaf keeps what a logged progress shows. -/
theorem openLeaf_logged (h : Logged.Shows logged progress) (first last : Nat) :
    Outcome.Both Logged.Shows (inquiry.openLeaf first last logged)
      (inquiry.openLeaf first last progress) := by
  subst h
  rw [openLeaf, openLeaf]
  dsimp only
  split
  · exact .ok rfl
  · refine Outcome.Both.bind_same _ fun points => ?_
    refine (inquiry.offerPoints_logged points logged.state).bind fun result result' _ _ h => ?_
    subst h
    exact .ok rfl

omit [LT N] [DecidableLT N] in
/-- A logged search skips a part exactly where the search it shows does. -/
theorem passes_logged (h : Logged.Shows logged progress) (nearest : D) :
    (!progress.going || inquiry.passes nearest progress.state) =
      (!logged.going || inquiry.passes nearest logged.state) := by
  subst h
  rfl

omit [LT N] [DecidableLT N] in
/-- A logged search reaches a far child exactly where the search it shows does. -/
theorem reaches_logged (h : Logged.Shows logged progress) (nearest : D) :
    inquiry.reaches nearest progress.state = inquiry.reaches nearest logged.state := by
  subst h
  rfl

/-- A part of a tree is searched alike with a log and without. -/
theorem visit_logged (h : Logged.Shows logged progress) (node : Node N) (gaps : List D)
    (nearest : D) : Outcome.Both Logged.Shows (inquiry.visit node gaps nearest logged)
      (inquiry.visit node gaps nearest progress) := by
  induction node generalizing gaps nearest logged progress with
  | leaf first last =>
    rw [visit, visit, passes_logged h]
    split
    · exact .ok h
    · exact openLeaf_logged h first last
  | branch axis split left right ihl ihr =>
    rw [visit, visit, passes_logged h]
    split
    · exact .ok h
    split
    · -- Whether the far side is in reach is decided before the near one is searched.
      simp only [reaches_logged h]
      split
      · refine (ihl h gaps nearest).bind fun _ _ _ _ h => ?_
        split
        · exact ihr h _ _
        · exact .ok h
      · refine (ihr h gaps nearest).bind fun _ _ _ _ h => ?_
        split
        · exact ihl h _ _
        · exact .ok h
    · exact .error _

end Inquiry

/-- Whatever a query fills, it fills with a log beside it as it does without. -/
theorem Index.find_logged [LT N] [DecidableLT N] [Distance D] [ToString D] [Collector σ D]
    (index : Index N D) (state : σ) (query : List N) (options : SearchOptions D) :
    Outcome.Both (fun logged state => logged.state = state)
      (index.find (Logged.start state : Logged σ D) query options)
      (index.find state query options) := by
  have hfold (parts : List (Part N)) (logged : Progress (Logged σ D)) (progress : Progress σ)
      (h : Logged.Shows logged progress) : Outcome.Both Logged.Shows
        (parts.foldlM (fun progress part => Inquiry.run
          ⟨part.tree, index.source, index.metric, query, options.slack, part.isLive⟩ progress)
          logged)
        (parts.foldlM (fun progress part => Inquiry.run
          ⟨part.tree, index.source, index.metric, query, options.slack, part.isLive⟩ progress)
          progress) := by
    induction parts generalizing logged progress with
    | nil => exact .ok h
    | cons part parts ih =>
      rw [List.foldlM_cons, List.foldlM_cons]
      exact (Inquiry.visit_logged h _ _ _).bind fun logged progress _ _ h => ih logged progress h
  unfold find
  refine Outcome.Both.guard fun _ => Outcome.Both.bind_same _ fun _ => ?_
  refine (hfold index.parts _ _ rfl).bind fun logged progress _ _ h => ?_
  subst h
  exact .ok rfl

section Offers

variable [LT D] [LE D] [Collector σ D]

/-- How a collector comes from one state to another, by offers that still counted when they were
made. -/
inductive Offers (start : σ) : List (Neighbor D) → σ → Prop
  | none : Offers start [] start
  | offer {log state neighbor} : Offers start log state →
      neighbor.distance ≤ Collector.worst state → Offers start (neighbor :: log)
        (Collector.offer state neighbor.distance neighbor.index).1

/-- Whether a collector always wants more and never lets its worst distance grow, as long as an
invariant holds that its offers keep. -/
structure Steady (inv : σ → Prop) : Prop where
  keeps {state distance index} : inv state → distance ≤ Collector.worst state →
    inv (Collector.offer state distance index).1
  more {state distance index} : inv state → distance ≤ Collector.worst state →
    (Collector.offer state distance index).2 = true
  not_lt {state distance index} : inv state → distance ≤ Collector.worst state →
    ¬ Collector.worst state < Collector.worst (Collector.offer state distance index).1

/-- What a log says of the points seen: each offer counted when it was made and was of the distance
of a point, and every point without an offer is beyond the reach of the last state. -/
structure Logged.Records (distance reach : Nat → D) (inv : σ → Prop) (start : σ)
    (logged : Logged σ D) (seen : List Nat) : Prop where
  holds : inv logged.state
  offers : Offers start logged.log logged.state
  exact : ∀ neighbor ∈ logged.log, neighbor.distance = distance neighbor.index
  parted : ∃ left, (logged.log.map Neighbor.index ++ left).Perm seen ∧
    ∀ index ∈ left, ¬ reach index ≤ Collector.worst logged.state

namespace Logged.Records

variable {distance reach : Nat → D} {inv : σ → Prop} {start : σ} {logged : Logged σ D}
variable {seen : List Nat}

omit [LT D] in
/-- No point is offered twice. -/
theorem nodup (h : logged.Records distance reach inv start seen) (hseen : seen.Nodup) :
    (logged.log.map Neighbor.index).Nodup := by
  obtain ⟨left, hleft, -⟩ := h.parted
  exact (List.nodup_append.mp (hleft.nodup_iff.mpr hseen)).1

omit [LT D] in
/-- Only points seen are offered. -/
theorem mem_seen (h : logged.Records distance reach inv start seen) {neighbor : Neighbor D}
    (hneighbor : neighbor ∈ logged.log) : neighbor.index ∈ seen := by
  obtain ⟨left, hleft, -⟩ := h.parted
  exact hleft.mem_iff.mp (List.mem_append_left _ (List.mem_map_of_mem hneighbor))

omit [LT D] in
/-- A point without an offer is out of reach in the end. -/
theorem not_reach_le (h : logged.Records distance reach inv start seen) {i : Nat} (hi : i ∈ seen)
    (hnever : i ∉ logged.log.map Neighbor.index) : ¬ reach i ≤ Collector.worst logged.state := by
  obtain ⟨left, hleft, hfar⟩ := h.parted
  exact hfar i ((List.mem_append.mp (hleft.mem_iff.mpr hi)).resolve_left hnever)

omit [LT D] in
/-- What was offered, with what was left out, are the points seen with their distances. -/
theorem exists_left (h : logged.Records distance reach inv start seen) :
    ∃ left : List Nat, (logged.log ++ left.map fun i => (⟨i, distance i⟩ : Neighbor D)).Perm
        (seen.map fun i => (⟨i, distance i⟩ : Neighbor D)) ∧
      ∀ i ∈ left, ¬ reach i ≤ Collector.worst logged.state := by
  obtain ⟨left, hleft, hfar⟩ := h.parted
  have hlog : (logged.log.map Neighbor.index).map (fun i => (⟨i, distance i⟩ : Neighbor D)) =
      logged.log := by
    rw [List.map_map]
    refine (List.map_congr_left fun neighbor hneighbor => ?_).trans (List.map_id _)
    exact congrArg (Neighbor.mk neighbor.index) (h.exact neighbor hneighbor).symm
  refine ⟨left, ?_, hfar⟩
  have hperm := hleft.map fun i => (⟨i, distance i⟩ : Neighbor D)
  rwa [List.map_append, hlog] at hperm

end Logged.Records

end Offers

variable [Scalar D] [Comparison D] [Collector σ D] {distance reach : Nat → D} {inv : σ → Prop}

/-- What is out of reach of a steady collector stays so. -/
theorem Steady.not_le (h : Steady inv) {state : σ} {d other : D} {index : Nat}
    (hinv : inv state) (hd : d ≤ Collector.worst state)
    (hother : ¬ other ≤ Collector.worst state) :
    ¬ other ≤ Collector.worst (Collector.offer state d index).1 := by
  intro hle
  refine hother (Comparison.trans hle ?_)
  exact Comparison.le_of_not_lt (Comparison.right hd) (Comparison.right hle)
    (h.not_lt hinv hd)

/-- The log of a steady collector can be followed point by point. -/
theorem Steady.tracks (h : Steady inv) (start : σ) :
    Tracks distance reach (Logged.Records distance reach inv start) where
  perm := by
    rintro logged seen seen' hperm ⟨hinv, hoffers, hexact, left, hleft, hfar⟩
    exact ⟨hinv, hoffers, hexact, left, hleft.trans hperm, hfar⟩
  offer := by
    rintro logged seen index ⟨hinv, hoffers, hexact, left, hleft, hfar⟩ hd
    refine ⟨h.more hinv hd, h.keeps hinv hd, .offer hoffers hd, ?_, left, hleft.cons index, ?_⟩
    · intro neighbor hneighbor
      rcases List.mem_cons.mp hneighbor with rfl | hneighbor
      · rfl
      · exact hexact neighbor hneighbor
    · exact fun other hother => h.not_le hinv hd (hfar other hother)
  skip := by
    rintro logged seen index ⟨hinv, hoffers, hexact, left, hleft, hfar⟩ hout
    refine ⟨hinv, hoffers, hexact, index :: left, List.perm_middle.trans (hleft.cons index), ?_⟩
    intro other hother
    rcases List.mem_cons.mp hother with rfl | hother
    · exact hout
    · exact hfar other hother

end Proximity
