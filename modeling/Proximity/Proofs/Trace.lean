import Mathlib
import Proximity.Proofs.Collector.Logged
import Proximity.Trace

/-!
# What a record of a search tells

A search with a record gives what it gives without, and the record holds what a log beside the
collector would hold. A search of any part of a tree is put together from opening leaves, from
skipping and from searching one part after the other, so what holds of these holds of it.
-/

namespace Proximity

variable {N D σ : Type}

namespace Traced

variable {α β : Type}

@[simp] theorem offers_done (result : Except Error α) :
    (done result : Traced D α).offers = [] := rfl

/-- The results of two parts are those of two computations in a row. -/
theorem result_andThen (first : Traced D α) (next : α → Traced D β) :
    (first.andThen next).result = first.result >>= fun a => (next a).result := by
  unfold andThen
  cases first.result <;> rfl

theorem andThen_of_ok {first : Traced D α} {a : α} (h : first.result = .ok a)
    (next : α → Traced D β) :
    first.andThen next = ⟨first.openings ++ (next a).openings, (next a).result⟩ := by
  rw [andThen, h]

theorem andThen_of_error {first : Traced D α} {e : Error} (h : first.result = .error e)
    (next : α → Traced D β) : first.andThen next = ⟨first.openings, .error e⟩ := by
  rw [andThen, h]

theorem offers_andThen_of_ok {first : Traced D α} {a : α} (h : first.result = .ok a)
    (next : α → Traced D β) :
    (first.andThen next).offers = first.offers ++ (next a).offers := by
  rw [andThen_of_ok h]
  exact List.flatMap_append

theorem offers_andThen_of_error {first : Traced D α} {e : Error} (h : first.result = .error e)
    (next : α → Traced D β) : (first.andThen next).offers = first.offers := by
  rw [andThen_of_error h]
  rfl

theorem andThen_done (first : Traced D α) (f : α → β) :
    (first.andThen fun a => .done (.ok (f a))) = ⟨first.openings, f <$> first.result⟩ := by
  cases h : first.result with
  | error e => exact andThen_of_error h _
  | ok a =>
    rw [andThen_of_ok h]
    exact congrArg (Traced.mk · _) (List.append_nil _)

end Traced

section Records

/-- Whether a search with a log fares as one with a record, and logs what that has offered. -/
def Traced.Tells (traced : Traced D (Progress σ)) (log : List (Neighbor D))
    (run : Except Error (Progress (Logged σ D))) : Prop :=
  run = (fun progress =>
    ⟨⟨progress.state, traced.offers.reverse ++ log⟩, progress.leaves, progress.going⟩) <$>
      traced.result

/-- Parts that tell a search tell it one after the other. -/
theorem Traced.Tells.andThen {first : Traced D (Progress σ)}
    {next : Progress σ → Traced D (Progress σ)} {log : List (Neighbor D)}
    {run : Except Error (Progress (Logged σ D))}
    {rest : Progress (Logged σ D) → Except Error (Progress (Logged σ D))}
    (hfirst : first.Tells log run)
    (hnext : ∀ progress log, (next progress).Tells log
      (rest ⟨⟨progress.state, log⟩, progress.leaves, progress.going⟩)) :
    (first.andThen next).Tells log (run >>= rest) := by
  unfold Tells at hfirst ⊢
  subst hfirst
  cases hresult : first.result with
  | error e =>
    rw [Traced.andThen_of_error hresult]
    rfl
  | ok progress =>
    rw [Traced.offers_andThen_of_ok hresult, Traced.result_andThen, hresult, List.reverse_append,
      List.append_assoc]
    exact hnext progress _

/-- What tells a part of a search tells it also where the part may be left out. -/
theorem Traced.Tells.ite {far : Traced D (Progress σ)} {next : Progress σ}
    {log : List (Neighbor D)} {run : Except Error (Progress (Logged σ D))} (h : far.Tells log run)
    (reach : Bool) : (if reach then far else .done (.ok next)).Tells log
      (if reach then run else .ok ⟨⟨next.state, log⟩, next.leaves, next.going⟩) := by
  cases reach
  · rfl
  · exact h

namespace Inquiry

variable [Scalar D] [Collector σ D] (inquiry : Inquiry N D)

/-- What is offered is logged, the last one first. -/
theorem traceOffers_tells (points : List Nat) (state : σ) (log : List (Neighbor D)) :
    inquiry.offerPoints points (⟨state, log⟩ : Logged σ D) =
      (fun result => (⟨result.1, (inquiry.traceOffers points state).1.reverse ++ log⟩,
        result.2)) <$> (inquiry.traceOffers points state).2 := by
  induction points generalizing state log with
  | nil => rfl
  | cons index points ih =>
    rw [offerPoints, traceOffers]
    split
    · show inquiry.metric.distanceTo inquiry.query (inquiry.source.read index)
        (Collector.worst state) >>= _ = _
      cases inquiry.metric.distanceTo inquiry.query (inquiry.source.read index)
          (Collector.worst state) with
      | error e => rfl
      | ok distance =>
        by_cases hle : distance ≤ Collector.worst state
        · rw [Outcome.ok_bind, if_pos (show distance ≤ Collector.worst (⟨state, log⟩ : Logged σ D)
            from hle)]
          simp only [if_pos hle]
          by_cases hmore : (Collector.offer state distance index).2 = true
          · have hmore' : (Collector.offer (⟨state, log⟩ : Logged σ D) distance index).2 = true :=
              hmore
            simp only [if_pos hmore, if_pos hmore']
            rw [List.reverse_cons, List.append_assoc]
            exact ih (Collector.offer state distance index).1 (⟨index, distance⟩ :: log)
          · have hmore' : ¬ (Collector.offer (⟨state, log⟩ : Logged σ D) distance index).2 = true :=
              hmore
            simp only [if_neg hmore, if_neg hmore']
            rfl
        · rw [Outcome.ok_bind, if_neg (show ¬ distance ≤
            Collector.worst (⟨state, log⟩ : Logged σ D) from hle)]
          simp only [if_neg hle]
          exact ih state log
    · exact ih state log

theorem traceLeaf_tells (first last : Nat) (progress : Progress σ) (log : List (Neighbor D)) :
    (inquiry.traceLeaf first last progress).Tells log (inquiry.openLeaf first last
      ⟨⟨progress.state, log⟩, progress.leaves, progress.going⟩) := by
  unfold Traced.Tells
  rw [openLeaf, traceLeaf]
  by_cases hnone : progress.leaves = some 0
  · rw [if_pos hnone, if_pos hnone]
    rfl
  rw [if_neg hnone, if_neg hnone]
  cases inquiry.tree.points first last with
  | error e => rfl
  | ok points =>
    simp only [Outcome.ok_bind, inquiry.traceOffers_tells]
    unfold Traced.offers
    rw [List.flatMap_singleton]
    cases (inquiry.traceOffers points progress.state).2 with
    | error e => rfl
    | ok result => rfl

variable [LT N] [DecidableLT N]

omit [LT N] [DecidableLT N] in
private theorem passes_beside (nearest : D) (state : σ) (log : List (Neighbor D)) :
    inquiry.passes nearest (⟨state, log⟩ : Logged σ D) = inquiry.passes nearest state := rfl

/-- A part of a tree is searched alike with a log and with a record. -/
theorem trace_tells (node : Node N) (gaps : List D) (nearest : D) (progress : Progress σ)
    (log : List (Neighbor D)) : (inquiry.trace node gaps nearest progress).Tells log
      (inquiry.visit node gaps nearest
        ⟨⟨progress.state, log⟩, progress.leaves, progress.going⟩) := by
  have hdone (progress : Progress σ) (log : List (Neighbor D)) :
      (Traced.done (.ok progress) : Traced D (Progress σ)).Tells log
        (.ok ⟨⟨progress.state, log⟩, progress.leaves, progress.going⟩) := rfl
  induction node generalizing gaps nearest progress log with
  | leaf first last =>
    rw [visit, trace]
    dsimp only
    rw [passes_beside]
    split
    · exact hdone progress log
    · exact inquiry.traceLeaf_tells first last progress log
  | branch axis split left right ihl ihr =>
    rw [visit, trace]
    dsimp only
    rw [passes_beside]
    split
    · exact hdone progress log
    cases inquiry.query[axis]? with
    | none => rfl
    | some v =>
    cases inquiry.tree.box.sides[axis]? with
    | none => rfl
    | some side =>
    -- Whether the far side is in reach is decided before the near one is searched.
    dsimp only
    by_cases hlt : v < split
    · rw [if_pos hlt, if_pos hlt]
      exact (ihl gaps nearest progress log).andThen fun next log => (ihr _ _ next log).ite _
    · rw [if_neg hlt, if_neg hlt]
      exact (ihr gaps nearest progress log).andThen fun next log => (ihl _ _ next log).ite _

end Inquiry

end Records

section Shape

/-- A search that is skipped if none goes on, or in some states. -/
def Traced.unless (skip : σ → Bool) (search : Progress σ → Traced D (Progress σ))
    (progress : Progress σ) : Traced D (Progress σ) :=
  if !progress.going || skip progress.state then .done (.ok progress) else search progress

/-- Whether a search does nothing once it has ended, and a law holds of its runs from any state, one
for each cap on the leaves. -/
structure Obeys (law : σ → (Option Nat → Traced D (Progress σ)) → Prop)
    (search : Progress σ → Traced D (Progress σ)) : Prop where
  idle {progress} : progress.going = false → search progress = .done (.ok progress)
  run (state : σ) : law state fun leaves => search ⟨state, leaves, true⟩

/-- Whether a law holds of doing nothing, of failing and of going on with a search that obeys it. -/
structure Closed (law : σ → (Option Nat → Traced D (Progress σ)) → Prop) : Prop where
  done (state : σ) : law state fun leaves => .done (.ok ⟨state, leaves, true⟩)
  fail (state : σ) (e : Error) : law state fun _ => .done (.error e)
  andThen {state : σ} {runs : Option Nat → Traced D (Progress σ)}
    {next : Progress σ → Traced D (Progress σ)} : law state runs → Obeys law next →
    law state fun leaves => (runs leaves).andThen next

namespace Closed

variable {law : σ → (Option Nat → Traced D (Progress σ)) → Prop}
variable {search next : Progress σ → Traced D (Progress σ)}

/-- A closed law allows steps that do nothing. -/
theorem idle (h : Closed law) : Obeys law fun progress => .done (.ok progress) :=
  ⟨fun _ => rfl, h.done⟩

/-- One search after the other obeys a law that both obey. -/
theorem both (h : Closed law) (hsearch : Obeys law search) (hnext : Obeys law next) :
    Obeys law fun progress => (search progress).andThen next where
  idle {progress} hgoing := by
    rw [hsearch.idle hgoing, Traced.andThen_of_ok (a := progress) rfl, hnext.idle hgoing]
    rfl
  run state := h.andThen (hsearch.run state) hnext

/-- A search that may be left out obeys a law that it obeys otherwise. -/
theorem ite (h : Closed law) (hsearch : Obeys law search) (reach : Bool) :
    Obeys law fun progress => if reach then search progress else .done (.ok progress) := by
  cases reach with
  | true => exact hsearch
  | false => exact h.idle

/-- A search that is skipped in some states obeys a law that holds of its runs. -/
theorem skipped (h : Closed law) (skip : σ → Bool)
    (hruns : ∀ state, law state fun leaves => search ⟨state, leaves, true⟩) :
    Obeys law (.unless skip search) where
  idle {progress} hgoing := by
    rw [Traced.unless, hgoing]
    rfl
  run state := by
    cases hskip : skip state with
    | true =>
      simp only [Traced.unless, hskip, Bool.or_true, if_true]
      exact h.done state
    | false =>
      simp only [Traced.unless, hskip, Bool.not_true, Bool.or_false, Bool.false_eq_true, if_false]
      exact hruns state

variable [LT N] [DecidableLT N] [Scalar D] [Collector σ D]

/-- A search of any part of a tree obeys a law that holds of opening a leaf. -/
theorem trace (h : Closed law) (inquiry : Inquiry N D)
    (hleaf : ∀ first last state,
      law state fun leaves => inquiry.traceLeaf first last ⟨state, leaves, true⟩)
    (node : Node N) (gaps : List D) (nearest : D) :
    Obeys law (inquiry.trace node gaps nearest) := by
  induction node generalizing gaps nearest with
  | leaf first last => exact h.skipped (inquiry.passes nearest) (hleaf first last)
  | branch axis split left right ihl ihr =>
    have hfail (hnone : inquiry.query[axis]? = none ∨ inquiry.tree.box.sides[axis]? = none) :
        (inquiry.trace (.branch axis split left right) gaps nearest :
            Progress σ → Traced D (Progress σ)) =
          .unless (inquiry.passes nearest) fun _ => .done (.error (.missingAxis axis)) := by
      funext progress
      rw [Inquiry.trace, Traced.unless]
      rcases hnone with hnone | hnone
      · rw [hnone]
      · rw [hnone]
        cases inquiry.query[axis]? <;> rfl
    cases hv : inquiry.query[axis]? with
    | none => exact hfail (.inl hv) ▸ h.skipped _ fun state => h.fail state _
    | some v =>
    cases hside : inquiry.tree.box.sides[axis]? with
    | none => exact hfail (.inr hside) ▸ h.skipped _ fun state => h.fail state _
    | some side =>
    -- The near side comes first, and the far one after it if it was in reach before.
    have hsides {near far : Progress σ → Traced D (Progress σ)} (hnear : Obeys law near)
        (hfar : Obeys law far) (bound : D) :
        Obeys law (.unless (inquiry.passes nearest) fun progress =>
          (near progress).andThen fun next =>
            if inquiry.reaches bound progress.state then far next else .done (.ok next)) :=
      h.skipped _ fun state => h.andThen (hnear.run state) (h.ite hfar (inquiry.reaches bound state))
    by_cases hlt : v < split
    · convert hsides (ihl gaps nearest) (ihr _ _)
        (Scalar.total (gaps.set axis (inquiry.metric.gap axis v ⟨split, side.high⟩))) using 1
      funext progress
      simp only [Inquiry.trace, hv, hside, if_pos hlt]
      rfl
    · convert hsides (ihr gaps nearest) (ihl _ _)
        (Scalar.total (gaps.set axis (inquiry.metric.gap axis v ⟨side.low, split⟩))) using 1
      funext progress
      simp only [Inquiry.trace, hv, hside, if_neg hlt]
      rfl

end Closed

end Shape

namespace Index

variable [LT N] [DecidableLT N] [Distance D] [ToString D] [Collector σ D] (index : Index N D)
variable (query : List N)

omit [ToString D] in
theorem traceParts_tells (slack : D) (parts : List (Part N)) (progress : Progress σ)
    (log : List (Neighbor D)) : (index.traceParts query slack parts progress).Tells log
      (parts.foldlM (fun progress part => Inquiry.run
        ⟨part.tree, index.source, index.metric, query, slack, part.isLive⟩ progress)
        ⟨⟨progress.state, log⟩, progress.leaves, progress.going⟩) := by
  induction parts generalizing progress log with
  | nil => rfl
  | cons part parts ih =>
    rw [List.foldlM_cons]
    exact (Inquiry.trace_tells _ _ _ _ progress log).andThen ih

omit [ToString D] in
/-- A search of some trees obeys a law that holds of opening a leaf. -/
theorem traceParts_obeys {law : σ → (Option Nat → Traced D (Progress σ)) → Prop} (h : Closed law)
    (hleaf : ∀ (inquiry : Inquiry N D) first last state,
      law state fun leaves => inquiry.traceLeaf first last ⟨state, leaves, true⟩)
    (slack : D) (parts : List (Part N)) : Obeys law (index.traceParts query slack parts) := by
  induction parts with
  | nil => exact h.idle
  | cons part parts ih => exact h.both (h.trace _ (hleaf _) _ _ _) ih

/-- A query with a log fares as one with a record, and logs what that has offered. -/
theorem find_tells (start : σ) (options : SearchOptions D) :
    index.find (Logged.start start : Logged σ D) query options =
      (fun final => ⟨final, (index.trace start query options).offers.reverse⟩) <$>
        (index.trace start query options).result := by
  rw [find, trace]
  by_cases hlength : query.length ≠ index.dims
  · rw [if_pos hlength, if_pos hlength]
    rfl
  rw [if_neg hlength, if_neg hlength]
  cases options.validate with
  | error e => rfl
  | ok _ =>
  dsimp only
  rw [Outcome.ok_bind]
  have htells := index.traceParts_tells query options.slack index.parts
    ⟨start, options.maxLeaves, true⟩ []
  unfold Traced.Tells at htells
  rw [Logged.start, htells]
  cases hresult : (index.traceParts query options.slack index.parts
      ⟨start, options.maxLeaves, true⟩).result with
  | error e =>
    rw [Traced.andThen_of_error hresult]
    rfl
  | ok progress =>
    rw [Traced.offers_andThen_of_ok hresult, Traced.result_andThen, hresult]
    simp only [Traced.offers_done, List.append_nil]
    rfl

/-- What a query gives is what it gives with a record. -/
theorem result_trace (start : σ) (options : SearchOptions D) :
    (index.trace start query options).result = index.find start query options := by
  have hboth := index.find_logged (D := D) start query options
  rw [index.find_tells] at hboth
  cases hresult : (index.trace start query options).result with
  | error e =>
    rw [hresult] at hboth
    generalize index.find start query options = found at hboth
    cases hboth
    rfl
  | ok final =>
    rw [hresult] at hboth
    generalize index.find start query options = found at hboth
    cases hboth with
    | ok h => exact congrArg Except.ok h

end Index

end Proximity
