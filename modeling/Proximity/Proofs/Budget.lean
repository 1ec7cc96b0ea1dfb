import Mathlib
import Proximity.Proofs.Exactness
import Proximity.Proofs.Trace

/-!
# A cap on the leaves only cuts a search short

A search under a cap does what the search without one does until it would open a leaf too many, and
then ends. So it opens the first leaves of those that are opened without the cap, as many as the
cap allows, and offers what was offered of these, whatever the collector does with its state. And a
collector that wants no more is offered no more.
-/

namespace Proximity

variable {N D σ : Type}

/-- The same options with another cap. -/
def SearchOptions.capped (options : SearchOptions D) (cap : Option Nat) : SearchOptions D :=
  { options with maxLeaves := cap }

section Caps

/-- Whether a search under a cap does what it does without, if that opens no more leaves than the
cap allows, and otherwise ends after as many of the same leaves. -/
structure Cuts (search : Option Nat → Traced D (Progress σ)) : Prop where
  uncapped {progress} : (search none).result = .ok progress → progress.leaves = none
  capped (cap : Nat) :
    ((search none).openings.length ≤ cap ∧ search (some cap) = ⟨(search none).openings,
      (fun progress => { progress with leaves := some (cap - (search none).openings.length) }) <$>
        (search none).result⟩) ∨
    cap < (search none).openings.length ∧ ∃ state,
      search (some cap) = ⟨(search none).openings.take cap, .ok ⟨state, some 0, false⟩⟩

/-- A run that neither offers nor opens anything meets every budget. -/
theorem Cuts.done (state : σ) (going : Bool) :
    Cuts fun leaves => (.done (.ok ⟨state, leaves, going⟩) : Traced D (Progress σ)) where
  uncapped h := by
    obtain rfl := Except.ok.inj h
    rfl
  capped cap := .inl ⟨Nat.zero_le cap, rfl⟩

/-- A run that fails at once meets every budget. -/
theorem Cuts.fail (e : Error) : Cuts fun _ => (.done (.error e) : Traced D (Progress σ)) where
  uncapped h := nomatch h
  capped cap := .inl ⟨Nat.zero_le cap, rfl⟩

/-- A search that is cut short from any state is so also if it has ended before. -/
theorem Cuts.of_obeys {search : Progress σ → Traced D (Progress σ)}
    (h : Obeys (fun _ => Cuts) search) (state : σ) (going : Bool) :
    Cuts fun leaves => search ⟨state, leaves, going⟩ := by
  cases going with
  | true => exact h.run state
  | false =>
    have hidle : (fun leaves => search ⟨state, leaves, false⟩) =
        fun leaves => .done (.ok ⟨state, leaves, false⟩) := funext fun leaves => h.idle rfl
    exact hidle ▸ .done state false

/-- If two searches are cut short, so is one after the other. -/
theorem Cuts.andThen {search : Option Nat → Traced D (Progress σ)} (h : Cuts search)
    {next : Progress σ → Traced D (Progress σ)} (hnext : Obeys (fun _ => Cuts) next) :
    Cuts fun leaves => (search leaves).andThen next := by
  cases hwhole : (search none).result with
  | error e =>
    have hand : (search none).andThen next = ⟨(search none).openings, .error e⟩ :=
      Traced.andThen_of_error hwhole next
    refine ⟨fun hok => ?_, fun cap => ?_⟩
    · rw [hand] at hok
      nomatch hok
    · rw [hand]
      rcases h.capped cap with ⟨hle, hcap⟩ | ⟨hlt, state, hcap⟩
      · refine .inl ⟨hle, ?_⟩
        rw [hwhole] at hcap
        rw [hcap]
        rfl
      · refine .inr ⟨hlt, state, ?_⟩
        rw [Traced.andThen_of_ok (by rw [hcap]), hnext.idle rfl, hcap]
        exact congrArg (Traced.mk · _) (List.append_nil _)
  | ok progress =>
    obtain ⟨state, leaves, going⟩ := progress
    obtain rfl : leaves = none := h.uncapped hwhole
    have hrest := Cuts.of_obeys hnext state going
    have hand : (search none).andThen next = ⟨(search none).openings ++
        (next ⟨state, none, going⟩).openings, (next ⟨state, none, going⟩).result⟩ :=
      Traced.andThen_of_ok hwhole next
    refine ⟨fun hok => ?_, fun cap => ?_⟩
    · rw [hand] at hok
      exact hrest.uncapped hok
    · rw [hand]
      simp only [List.length_append]
      rcases h.capped cap with ⟨hle, hcap⟩ | ⟨hlt, state', hcap⟩
      · rw [hwhole] at hcap
        have hgoes : (search (some cap)).result = .ok ⟨state, cap - (search none).openings.length,
            going⟩ := by
          rw [hcap]
          rfl
        have hcap' := Traced.andThen_of_ok hgoes next
        rw [hcap', hcap]
        rcases hrest.capped (cap - (search none).openings.length) with
          ⟨hle', hmore⟩ | ⟨hlt', final, hmore⟩
        · refine .inl ⟨by omega, ?_⟩
          rw [hmore, Nat.sub_sub]
        · refine .inr ⟨by omega, final, ?_⟩
          rw [hmore, List.take_append, List.take_of_length_le hle]
      · refine .inr ⟨by omega, state', ?_⟩
        rw [Traced.andThen_of_ok (by rw [hcap]), hnext.idle rfl, hcap,
          List.take_append_of_le_length hlt.le]
        exact congrArg (Traced.mk · _) (List.append_nil _)

/-- Being cut short by a cap is a law that searches put together obey if their parts do. -/
theorem closed_cuts : Closed fun (_ : σ) => Cuts (D := D) (σ := σ) where
  done state := .done state true
  fail _ := .fail
  andThen hruns hnext := hruns.andThen hnext

variable [Scalar D] [Collector σ D] (inquiry : Inquiry N D)

/-- Opening a leaf takes one of those that the cap allows. -/
theorem Inquiry.traceLeaf_cuts (first last : Nat) (state : σ) :
    Cuts fun leaves => inquiry.traceLeaf first last ⟨state, leaves, true⟩ := by
  have hone (leaves : Option Nat) (hleaves : leaves ≠ some 0) :
      inquiry.traceLeaf first last ⟨state, leaves, true⟩ =
        ⟨(inquiry.traceLeaf first last ⟨state, none, true⟩).openings,
          (fun progress => { progress with leaves := leaves.map (· - 1) }) <$>
            (inquiry.traceLeaf first last ⟨state, none, true⟩).result⟩ := by
    unfold traceLeaf
    rw [if_neg hleaves, if_neg (by nofun)]
    dsimp only
    cases inquiry.tree.points first last with
    | error e => rfl
    | ok points =>
      dsimp only
      cases (inquiry.traceOffers points state).2 <;> rfl
  have hlength : (inquiry.traceLeaf first last ⟨state, none, true⟩).openings.length = 1 := by
    unfold traceLeaf
    rw [if_neg (by nofun)]
    cases inquiry.tree.points first last <;> rfl
  refine ⟨fun {progress} hok => ?_, fun cap => ?_⟩
  · have hsame := congrArg Traced.result (hone none (by nofun))
    rw [hok] at hsame
    exact congrArg Progress.leaves (Except.ok.inj hsame)
  · rw [hlength]
    cases cap with
    | zero => exact .inr ⟨Nat.one_pos, state, rfl⟩
    | succ cap => exact .inl ⟨Nat.succ_pos cap, hone (some (cap + 1)) (by simp)⟩

end Caps

section Refusals

variable [Collector σ D]

/-- How a collector answers offers, the first one first: it wants more after each but maybe the
last, and then says so. -/
inductive Answers : σ → List (Neighbor D) → σ → Bool → Prop
  | none {state} : Answers state [] state true
  | refused {state neighbor final} :
      Collector.offer state neighbor.distance neighbor.index = (final, false) →
      Answers state [neighbor] final false
  | wanted {state neighbor next rest final more} :
      Collector.offer state neighbor.distance neighbor.index = (next, true) →
      Answers next rest final more → Answers state (neighbor :: rest) final more

/-- Offers that were all taken go on with those of the next part. -/
theorem Answers.append {state next final : σ} {offers rest : List (Neighbor D)} {more : Bool}
    (h : Answers state offers next true) (hrest : Answers next rest final more) :
    Answers state (offers ++ rest) final more := by
  generalize htrue : true = wants at h
  induction h with
  | none => exact hrest
  | refused => cases htrue
  | wanted hoffer _ ih => exact .wanted hoffer (ih hrest htrue)

/-- After an offer that ended the search no other is made. -/
theorem Answers.after_eq_nil {state final : σ} {offers before after : List (Neighbor D)}
    {neighbor : Neighbor D} {more : Bool} (h : Answers state offers final more)
    (hoffers : offers = before ++ neighbor :: after)
    (hrefused : (Collector.offer (before.foldl
      (fun state neighbor => (Collector.offer state neighbor.distance neighbor.index).1) state)
        neighbor.distance neighbor.index).2 = false) : after = [] := by
  induction h generalizing before with
  | none => exact absurd hoffers (by simp)
  | refused hoffer =>
    cases before with
    | nil => exact (List.cons.inj hoffers).2.symm
    | cons first before => exact absurd (List.cons.inj hoffers).2 (by simp)
  | wanted hoffer _ ih =>
    cases before with
    | nil =>
      obtain ⟨rfl, -⟩ := List.cons.inj hoffers
      rw [List.foldl_nil, hoffer] at hrefused
      nomatch hrefused
    | cons first before =>
      obtain ⟨rfl, hrest⟩ := List.cons.inj hoffers
      rw [List.foldl_cons, hoffer] at hrefused
      exact ih hrest hrefused

/-- Whether a search made its offers as the collector answered them, and goes on only if that wants
more. -/
def Heeds (start : σ) (traced : Traced D (Progress σ)) : Prop :=
  ∃ final more, Answers start traced.offers final more ∧
    ∀ progress, traced.result = .ok progress →
      progress.state = final ∧ (progress.going = true → more = true)

/-- A run that offers nothing leaves the collector as it is. -/
theorem Heeds.done (progress : Progress σ) :
    Heeds progress.state (.done (.ok progress) : Traced D (Progress σ)) := by
  refine ⟨progress.state, true, .none, fun next hnext => ?_⟩
  obtain rfl := Except.ok.inj hnext
  exact ⟨rfl, fun _ => rfl⟩

/-- A run that fails at once has offered nothing. -/
theorem Heeds.fail (start : σ) (e : Error) :
    Heeds start (.done (.error e) : Traced D (Progress σ)) :=
  ⟨start, true, .none, fun _ hnext => nomatch hnext⟩

/-- If two searches heed the answers, so does one after the other. -/
theorem Heeds.andThen {start : σ} {first : Traced D (Progress σ)} (h : Heeds start first)
    {next : Progress σ → Traced D (Progress σ)}
    (hnext : Obeys (fun state runs => ∀ leaves, Heeds state (runs leaves)) next) :
    Heeds start (first.andThen next) := by
  obtain ⟨final, more, hanswers, hresult⟩ := h
  cases hfirst : first.result with
  | error e =>
    refine ⟨final, more, ?_, fun last hlast => ?_⟩
    · rwa [Traced.offers_andThen_of_error hfirst]
    · rw [Traced.andThen_of_error hfirst] at hlast
      nomatch hlast
  | ok middle =>
    obtain ⟨state, leaves, going⟩ := middle
    obtain ⟨rfl, hmore⟩ := hresult _ hfirst
    unfold Heeds
    rw [Traced.offers_andThen_of_ok hfirst, Traced.andThen_of_ok hfirst]
    cases going with
    | false =>
      rw [hnext.idle rfl]
      refine ⟨state, more, by simpa using hanswers, fun last hlast => ?_⟩
      obtain rfl := Except.ok.inj hlast
      exact ⟨rfl, nofun⟩
    | true =>
      obtain ⟨last, more', hanswers', hresult'⟩ := hnext.run state leaves
      exact ⟨last, more', (hmore rfl ▸ hanswers).append hanswers', hresult'⟩

/-- Heeding the answers is a law that searches put together obey if their parts do. -/
theorem closed_heeds : Closed fun (state : σ) (runs : Option Nat → Traced D (Progress σ)) =>
    ∀ leaves, Heeds state (runs leaves) where
  done state leaves := .done ⟨state, leaves, true⟩
  fail state e _ := .fail state e
  andThen hruns hnext leaves := (hruns leaves).andThen hnext

variable [Scalar D] (inquiry : Inquiry N D)

/-- Points are offered as the collector answers. -/
theorem Inquiry.traceOffers_answers (points : List Nat) (state : σ) : ∃ final more,
    Answers state (inquiry.traceOffers points state).1 final more ∧
      ∀ result, (inquiry.traceOffers points state).2 = .ok result → result = (final, more) := by
  induction points generalizing state with
  | nil => exact ⟨state, true, .none, fun result h => (Except.ok.inj h).symm⟩
  | cons index points ih =>
    rw [traceOffers]
    split
    · cases inquiry.metric.distanceTo inquiry.query (inquiry.source.read index)
          (Collector.worst state) with
      | error e =>
        refine ⟨state, true, .none, fun result h => ?_⟩
        cases h
      | ok distance =>
        dsimp only
        split
        · cases hoffer : Collector.offer state distance index with
          | mk next more =>
          cases more with
          | false =>
            exact ⟨next, false, .refused hoffer, fun result h => (Except.ok.inj h).symm⟩
          | true =>
            obtain ⟨final, more, hanswers, hresult⟩ := ih next
            exact ⟨final, more, .wanted hoffer hanswers, hresult⟩
        · exact ih state
    · exact ih state

/-- A leaf offers its points one by one and goes on only while they are taken. -/
theorem Inquiry.traceLeaf_heeds (first last : Nat) (progress : Progress σ) :
    Heeds progress.state (inquiry.traceLeaf first last progress) := by
  unfold traceLeaf
  split
  · exact ⟨progress.state, true, .none, fun next hnext =>
      ⟨(Except.ok.inj hnext) ▸ rfl, fun _ => rfl⟩⟩
  cases inquiry.tree.points first last with
  | error e => exact ⟨progress.state, true, .none, fun _ hnext => nomatch hnext⟩
  | ok points =>
    obtain ⟨final, more, hanswers, hresult⟩ := inquiry.traceOffers_answers points progress.state
    refine ⟨final, more, ?_, fun next hnext => ?_⟩
    · simpa [Traced.offers] using hanswers
    · obtain ⟨result, hok, hnext⟩ := Outcome.bind_eq_ok.mp hnext
      obtain rfl := hresult result hok
      obtain rfl := Except.ok.inj hnext
      exact ⟨rfl, id⟩

end Refusals

namespace Index

variable [LT N] [DecidableLT N] [Distance D] [ToString D] [Collector σ D]

/-- Under a cap a query opens the first leaves of those that it opens without, if it opens more than
the cap allows, and otherwise does the same. -/
theorem trace_capped (index : Index N D) (start : σ) (query : List N) (options : SearchOptions D)
    (cap : Nat) :
    (index.trace start query (options.capped (some cap))).openings =
        (index.trace start query (options.capped none)).openings.take cap ∧
      ((index.trace start query (options.capped none)).openings.length ≤ cap →
        (index.trace start query (options.capped (some cap))).result =
          (index.trace start query (options.capped none)).result) := by
  have hvalid (cap : Option Nat) : (options.capped cap).validate = options.validate := rfl
  have hslack (cap : Option Nat) : (options.capped cap).slack = options.slack := rfl
  have hleaves (cap : Option Nat) : (options.capped cap).maxLeaves = cap := rfl
  simp only [trace, hvalid, hslack, hleaves]
  by_cases hlength : query.length ≠ index.dims
  · rw [if_pos hlength, if_pos hlength]
    exact ⟨List.take_nil.symm, fun _ => rfl⟩
  rw [if_neg hlength, if_neg hlength]
  cases options.validate with
  | error e => exact ⟨List.take_nil.symm, fun _ => rfl⟩
  | ok _ =>
  simp only [Traced.andThen_done]
  have hcuts : Obeys (fun _ : σ => Cuts) (index.traceParts query options.slack index.parts) :=
    index.traceParts_obeys query closed_cuts
      (fun inquiry first last state => inquiry.traceLeaf_cuts first last state) options.slack
      index.parts
  rcases (hcuts.run start).capped cap with
    ⟨hle, hcap⟩ | ⟨hlt, state, hcap⟩
  · rw [hcap]
    refine ⟨(List.take_of_length_le hle).symm, fun _ => ?_⟩
    dsimp only
    cases (index.traceParts query options.slack index.parts ⟨start, none, true⟩).result <;> rfl
  · rw [hcap]
    exact ⟨rfl, fun hle => absurd hle (Nat.not_le.mpr hlt)⟩

/-- A query makes its offers as the collector answers them. -/
theorem trace_answers (index : Index N D) (start : σ) (query : List N)
    (options : SearchOptions D) : ∃ final more,
      Answers start (index.trace start query options).offers final more := by
  unfold trace
  split
  · exact ⟨start, true, .none⟩
  cases options.validate with
  | error e => exact ⟨start, true, .none⟩
  | ok _ =>
  have hheeds := index.traceParts_obeys query closed_heeds
    (fun inquiry first last (state : σ) leaves => inquiry.traceLeaf_heeds first last
      ⟨state, leaves, true⟩) options.slack index.parts
  obtain ⟨final, more, hanswers, -⟩ := hheeds.run start options.maxLeaves
  dsimp only
  rw [Traced.andThen_done]
  exact ⟨final, more, hanswers⟩

/-- A cap only cuts a query short. With a record a query gives what it gives without, and what is
recorded are its offers. Under a cap it opens no more leaves than that, which are the first of those
that it opens without a cap, so it offers no more than under a larger cap or none, and the same
first. And once an offer ended the search no other is made. -/
theorem cap_cuts (index : Index N D) (start : σ) (query : List N) (options : SearchOptions D) :
    (∀ cap,
      (index.trace start query (options.capped cap)).result =
        index.find start query (options.capped cap) ∧
      index.find (Logged.start start : Logged σ D) query (options.capped cap) =
        (fun final =>
          ⟨final, (index.trace start query (options.capped cap)).offers.reverse⟩) <$>
          index.find start query (options.capped cap)) ∧
    (∀ cap,
      (index.trace start query (options.capped (some cap))).openings =
        (index.trace start query (options.capped none)).openings.take cap ∧
      (index.trace start query (options.capped (some cap))).openings.length ≤ cap ∧
      ((index.trace start query (options.capped none)).openings.length ≤ cap →
        index.find start query (options.capped (some cap)) =
          index.find start query (options.capped none))) ∧
    (∀ cap, (index.trace start query (options.capped (some cap))).offers <+:
      (index.trace start query (options.capped none)).offers) ∧
    (∀ cap larger, cap ≤ larger → (index.trace start query (options.capped (some cap))).offers <+:
      (index.trace start query (options.capped (some larger))).offers) ∧
    ∀ cap before neighbor after,
      (index.trace start query (options.capped cap)).offers = before ++ neighbor :: after →
      (Collector.offer (before.foldl
        (fun state neighbor => (Collector.offer state neighbor.distance neighbor.index).1) start)
          neighbor.distance neighbor.index).2 = false → after = [] := by
  have hinitial (openings : List (Opening D)) (cap : Nat) :
      (openings.take cap).flatMap Opening.offers <+: openings.flatMap Opening.offers := by
    conv_rhs => rw [← List.take_append_drop cap openings]
    rw [List.flatMap_append]
    exact List.prefix_append _ _
  refine ⟨fun cap => ⟨index.result_trace query start _, ?_⟩, fun cap => ?_, fun cap => ?_,
    fun cap larger hle => ?_, fun cap before neighbor after hoffers hrefused => ?_⟩
  · rw [index.find_tells, index.result_trace]
  · obtain ⟨htake, hsame⟩ := index.trace_capped start query options cap
    refine ⟨htake, htake ▸ List.length_take_le _ _, fun hle => ?_⟩
    rw [← index.result_trace, ← index.result_trace]
    exact hsame hle
  · rw [Traced.offers, (index.trace_capped start query options cap).1]
    exact hinitial _ cap
  · have htake := (index.trace_capped start query options larger).1
    rw [Traced.offers, Traced.offers, (index.trace_capped start query options cap).1, htake]
    rw [show List.take cap _ = List.take cap (List.take larger
      (index.trace start query (options.capped none)).openings) by
        rw [List.take_take, Nat.min_eq_left hle]]
    exact hinitial _ cap
  · obtain ⟨final, more, hanswers⟩ := index.trace_answers start query (options.capped cap)
    exact hanswers.after_eq_nil hoffers hrefused

/-- Of the four bytes those of the nearest leaf come first, and with one leaf alone. -/
example :
    let index : Index UInt8 Binary64 := .ofTree byteTree byteSource .squaredEuclidean
    let offered (cap : Option Nat) := (index.trace (Nearest.ofSize 4 : Nearest Binary64) [0]
      (SearchOptions.standard.capped cap)).offers.map Neighbor.index
    offered none = [3, 1, 0, 2] ∧ offered (some 1) = [3, 1] := by decide +kernel

end Index

end Proximity
