import Mathlib
import Proximity.Forest.InPlace
import Proximity.Proofs.Forest.Writable
import Proximity.Proofs.Tree.Progress

/-!
# Insertions in place

An insertion asks all its questions, the building of the merged tree among them, before its first
step that changes the forest. So one that fails leaves the forest as it was, and one that succeeds
leaves it settled. A range of insertions stops at the first that fails and keeps those before.
-/

namespace Proximity

namespace Change

variable {N D α β : Type} {forest : Forest N D}

@[simp] theorem outcome_ask (question : Forest N D → Except Error α) :
    (ask question).outcome forest = (question forest, forest) := rfl

@[simp] theorem outcome_step (next : Forest N D → Forest N D) :
    (step next).outcome forest = (.ok ⟨⟩, next forest) := rfl

/-- A run goes on where the one before succeeded, from the forest that it left. -/
theorem outcome_bind (first : Change N D α) (rest : α → Change N D β) :
    (first >>= rest).outcome forest =
      match first.outcome forest with
      | (.ok a, next) => (rest a).outcome next
      | (.error e, next) => (.error e, next) := by
  show (ExceptT.run (first >>= rest)).run forest = _
  rw [ExceptT.run_bind, StateT.run_bind]
  unfold outcome StateT.run
  rcases h : first.run forest with ⟨result, next⟩
  cases result <;> rfl

/-- After a question that was answered the run goes on, and otherwise the forest is left alone. -/
theorem outcome_ask_bind (question : Forest N D → Except Error α) (rest : α → Change N D β) :
    (ask question >>= rest).outcome forest =
      match question forest with
      | .ok a => (rest a).outcome forest
      | .error e => (.error e, forest) := by
  rw [outcome_bind, outcome_ask]
  cases question forest <;> rfl

/-- A change goes on from the forest that its first step left. -/
theorem outcome_step_bind (next : Forest N D → Forest N D) (rest : PUnit → Change N D β) :
    (step next >>= rest).outcome forest = (rest ⟨⟩).outcome (next forest) := by
  rw [outcome_bind, outcome_step]

/-- Steps that cannot fail are all taken. -/
theorem outcome_forM_step (next : α → Forest N D → Forest N D) (items : List α)
    (forest : Forest N D) :
    (items.forM fun item => step (next item)).outcome forest =
      (.ok ⟨⟩, items.foldl (fun forest item => next item forest) forest) := by
  induction items generalizing forest with
  | nil => rfl
  | cons item items ih =>
    show (step (next item) >>= fun _ => items.forM fun item => step (next item)).outcome forest = _
    rw [outcome_step_bind, ih, List.foldl_cons]

end Change

namespace Forest

variable {N D : Type}

private theorem set_replicate_append {α : Type} (count : Nat) (a b c : α) (rest : List α) :
    (List.replicate count a ++ b :: rest).set count c = List.replicate count a ++ c :: rest := by
  rw [List.set_append, List.length_replicate, if_neg (Nat.lt_irrefl count), Nat.sub_self,
    List.set_cons_zero]

/-- Slots that are emptied one after the other are all empty, and nothing else changes. -/
private theorem foldl_clearSlot (forest : Forest N D) (slot : Nat) :
    (List.range slot).foldl clearSlot forest =
      { forest with
        slots :=
          List.replicate (min slot forest.slots.length) none ++ forest.slots.drop slot } := by
  induction slot with
  | zero => simp
  | succ slot ih =>
    rw [List.range_succ, List.foldl_concat, ih, clearSlot]
    refine congrArg (fun slots => { forest with slots }) ?_
    dsimp only
    rcases Nat.lt_or_ge slot forest.slots.length with hlt | hge
    · rw [Nat.min_eq_left hlt.le, Nat.min_eq_left hlt, List.drop_eq_getElem_cons hlt,
        set_replicate_append, List.replicate_succ', List.append_assoc]
      rfl
    · rw [List.drop_eq_nil_of_le hge, List.drop_eq_nil_of_le (Nat.le_succ_of_le hge),
        List.append_nil, List.append_nil, Nat.min_eq_right hge,
        Nat.min_eq_right (Nat.le_succ_of_le hge), List.set_eq_of_length_le (by simpa using hge)]

/-- Points that are located one after the other are all put into the directory. -/
private theorem foldl_locate (forest : Forest N D) (slot : Nat) (points : List Nat) :
    points.foldl (locate · slot) forest =
      { forest with directory := forest.directory.putAll slot points } := by
  induction points generalizing forest with
  | nil => rfl
  | cons point points ih =>
    rw [List.foldl_cons, ih]
    rfl

/-- The steps that change the forest settle the tree. -/
theorem settle_eq_steps (forest : Forest N D) (slot : Nat) (tree : Tree N) :
    countPoint (countInsertion
        (((tree.order.toList.foldl (locate · slot)
          ((List.range slot).foldl clearSlot forest)).extendSlots (slot + 1)).fillSlot slot tree)) =
      forest.settle slot tree := by
  have hslots : ((List.replicate (min slot forest.slots.length) none ++ forest.slots.drop slot) ++
      List.replicate (slot + 1 - (List.replicate (min slot forest.slots.length)
        (none : Option (Plot N)) ++ forest.slots.drop slot).length) none).set slot
          (some (Plot.ofTree tree)) =
      List.replicate slot none ++ some (.ofTree tree) :: forest.slots.drop (slot + 1) := by
    rcases Nat.lt_or_ge slot forest.slots.length with hlt | hge
    · rw [Nat.min_eq_left hlt.le, List.drop_eq_getElem_cons hlt,
        show slot + 1 - _ = 0 by simp; omega, List.replicate_zero, List.append_nil,
        set_replicate_append]
    · rw [Nat.min_eq_right hge, List.drop_eq_nil_of_le hge,
        List.drop_eq_nil_of_le (Nat.le_succ_of_le hge), List.append_nil, List.length_replicate,
        List.replicate_append_replicate,
        show forest.slots.length + (slot + 1 - forest.slots.length) = slot + 1 by omega,
        List.replicate_succ', set_replicate_append]
  rw [foldl_clearSlot, foldl_locate]
  exact congrArg (fun slots => { forest.settle slot tree with slots }) hslots

variable [Coordinate N]

/-- Why an insertion is refused, in the order in which this is found out. -/
inductive Refuses (forest : Forest N D) (source : Source N) (index : Nat) : Error → Prop
  | axes : source.dims ≠ forest.dims →
      Refuses forest source index (.sourceDimensions source.dims forest.dims)
  | range : source.dims = forest.dims → source.size ≤ index ∨ maxWord32 < index →
      Refuses forest source index (.pointOutOfRange index source.size)
  | present : source.dims = forest.dims → ¬ (source.size ≤ index ∨ maxWord32 < index) →
      forest.contains index = true → Refuses forest source index (.pointPresent index)
  | counter : source.dims = forest.dims → ¬ (source.size ≤ index ∨ maxWord32 < index) →
      forest.contains index = false → maxWord64 ≤ forest.counter →
      Refuses forest source index .insertionsExhausted
  /-- The merged tree cannot be built. -/
  | building {cause} : source.dims = forest.dims →
      ¬ (source.size ≤ index ∨ maxWord32 < index) → forest.contains index = false →
      forest.counter < maxWord64 →
      Tree.build source forest.options (forest.merged index) none = .error cause →
      Refuses forest source index cause

variable {forest : Forest N D} {source : Source N}

omit [Coordinate N] in
/-- A source is refused exactly for its dimensions, which the error names. -/
theorem requireSource_eq_error {cause : Error} :
    forest.requireSource source = .error cause ↔
      source.dims ≠ forest.dims ∧ .sourceDimensions source.dims forest.dims = cause := by
  unfold requireSource
  split
  · next haxes => simp [haxes]
  · next haxes => simp [haxes]

/-- What the check of an insertion refuses is refused, in this order. -/
theorem refuses_of_requireInsertable {index : Nat} {cause : Error}
    (h : forest.requireInsertable source index = .error cause) :
    forest.Refuses source index cause := by
  unfold requireInsertable at h
  obtain hsource | ⟨_, hsource, h⟩ := Outcome.bind_eq_error.mp h
  · obtain ⟨haxes, rfl⟩ := requireSource_eq_error.mp hsource
    exact .axes haxes
  have haxes := requireSource_eq_ok.mp hsource
  obtain ⟨hrange, rfl⟩ | ⟨hrange, h⟩ := Outcome.guard_eq_error.mp h
  · exact .range haxes hrange
  obtain ⟨hpresent, rfl⟩ | ⟨hpresent, h⟩ := Outcome.guard_eq_error.mp h
  · exact .present haxes hrange hpresent
  split at h
  · next hfull =>
    obtain rfl := Except.error.inj h
    exact .counter haxes hrange (Bool.eq_false_iff.mpr hpresent) hfull
  · nomatch h

/-- An insertion fails exactly if it is refused. -/
theorem insert_eq_error {index : Nat} {cause : Error} :
    forest.insert source index = .error cause ↔ forest.Refuses source index cause := by
  constructor
  · intro h
    obtain hrequire | ⟨_, hrequire, h⟩ := Outcome.bind_eq_error.mp h
    · exact refuses_of_requireInsertable hrequire
    have hinsertable := requireInsertable_eq_ok.mp hrequire
    obtain hbuild | ⟨_, -, h⟩ := Outcome.bind_eq_error.mp h
    · refine .building hinsertable.dims_eq ?_ hinsertable.absent hinsertable.counter_lt hbuild
      rw [not_or, Nat.not_le, Nat.not_lt]
      exact ⟨hinsertable.lt_size, hinsertable.le_word⟩
    · nomatch h
  · -- Each cause is that of the first check that fails, so all checks before it succeed.
    have hsource (haxes : source.dims = forest.dims) : forest.requireSource source = .ok () :=
      requireSource_eq_ok.mpr haxes
    have hpresent (habsent : forest.contains index = false) : ¬ forest.contains index = true :=
      Bool.eq_false_iff.mp habsent
    rintro (haxes | ⟨haxes, hrange⟩ | ⟨haxes, hrange, hin⟩ | ⟨haxes, hrange, habsent, hfull⟩ |
      ⟨haxes, hrange, habsent, hroom, hbuild⟩)
    · exact Outcome.bind_eq_error.mpr (.inl (Outcome.bind_eq_error.mpr
        (.inl (requireSource_eq_error.mpr ⟨haxes, rfl⟩))))
    · refine Outcome.bind_eq_error.mpr (.inl (Outcome.bind_eq_error.mpr
        (.inr ⟨(), hsource haxes, Outcome.guard_eq_error.mpr (.inl ⟨hrange, rfl⟩)⟩)))
    · refine Outcome.bind_eq_error.mpr (.inl (Outcome.bind_eq_error.mpr
        (.inr ⟨(), hsource haxes, Outcome.guard_eq_error.mpr (.inr ⟨hrange, ?_⟩)⟩)))
      exact Outcome.guard_eq_error.mpr (.inl ⟨hin, rfl⟩)
    · refine Outcome.bind_eq_error.mpr (.inl (Outcome.bind_eq_error.mpr
        (.inr ⟨(), hsource haxes, Outcome.guard_eq_error.mpr (.inr ⟨hrange, ?_⟩)⟩)))
      exact Outcome.guard_eq_error.mpr (.inr ⟨hpresent habsent, if_pos hfull⟩)
    · rw [not_or, Nat.not_le, Nat.not_lt] at hrange
      exact Outcome.bind_eq_error.mpr (.inr ⟨(),
        requireInsertable_eq_ok.mpr ⟨haxes, hrange.1, hrange.2, habsent, hroom⟩,
        Outcome.bind_eq_error.mpr (.inl hbuild)⟩)

/-- An insertion in place gives what the insertion gives, and leaves the forest alone if that
fails. -/
theorem outcome_insertInPlace (forest : Forest N D) (source : Source N) (index : Nat) :
    (insertInPlace source index).outcome forest =
      match forest.insert source index with
      | .ok final => (.ok ⟨⟩, final)
      | .error cause => (.error cause, forest) := by
  unfold insertInPlace insert
  rw [Change.outcome_ask_bind]
  cases forest.requireInsertable source index with
  | error cause => rfl
  | ok _ =>
  rw [Outcome.ok_bind]
  dsimp only
  rw [Change.outcome_ask_bind]
  dsimp only
  rw [Change.outcome_ask_bind]
  cases Tree.build source forest.options (forest.merged index) none with
  | error cause => rfl
  | ok tree =>
  -- From here on the run only changes the forest.
  dsimp only
  rw [Change.outcome_bind, Change.outcome_forM_step]
  dsimp only
  rw [Change.outcome_bind, Change.outcome_forM_step]
  dsimp only
  rw [Change.outcome_step_bind, Change.outcome_step_bind, Change.outcome_step_bind,
    Change.outcome_step, settle_eq_steps]
  rfl

/-- A range of insertions is the insertions of its points in order, up to the first that fails. -/
private theorem outcome_range (source : Source N) (count first : Nat) (forest : Forest N D) :
    (∃ final, (List.range' first count).foldlM (insert · source) forest = .ok final ∧
      insertRange source count first forest = (final, none) ∧
      ((List.range' first count).forM (insertInPlace source)).outcome forest =
        (.ok ⟨⟩, final)) ∨
    ∃ done < count, ∃ cause middle,
      (List.range' first done).foldlM (insert · source) forest = .ok middle ∧
      middle.insert source (first + done) = .error cause ∧
      insertRange source count first forest = (middle, some cause) ∧
      ((List.range' first count).forM (insertInPlace source)).outcome forest =
        (.error cause, middle) := by
  induction count generalizing first forest with
  | zero => exact .inl ⟨forest, rfl, rfl, rfl⟩
  | succ count ih =>
    have hrun : ((List.range' first (count + 1)).forM (insertInPlace source)).outcome forest = _ :=
      Change.outcome_bind (insertInPlace source first)
        fun _ => (List.range' (first + 1) count).forM (insertInPlace source)
    rw [hrun, outcome_insertInPlace, insertRange]
    cases hinsert : forest.insert source first with
    | error cause => exact .inr ⟨0, Nat.succ_pos count, cause, forest, rfl, hinsert, rfl, rfl⟩
    | ok next =>
      have hfold (done : Nat) : (List.range' first (done + 1)).foldlM (insert · source) forest =
          (List.range' (first + 1) done).foldlM (insert · source) next := by
        rw [List.range'_succ, List.foldlM_cons, hinsert]
        rfl
      rcases ih (first + 1) next with
        ⟨final, hall, hrange, hplace⟩ | ⟨done, hdone, cause, middle, hall, hfail, hrange, hplace⟩
      · exact .inl ⟨final, (hfold count).trans hall, hrange, hplace⟩
      · refine .inr ⟨done + 1, Nat.succ_lt_succ hdone, cause, middle, (hfold done).trans hall, ?_,
          hrange, hplace⟩
        rw [← hfail]
        congr 1
        omega

/-- However a forest came about, over a source with all its coordinates the merged tree is built
unless its nodes are exhausted. -/
theorem History.refuses_cases [LawfulCoordinate N] (h : History source forest)
    (hcomplete : ∀ index < source.size, source.Complete index) {index : Nat} {cause : Error}
    (hrefuses : forest.Refuses source index cause) :
    cause = .pointOutOfRange index source.size ∨ cause = .pointPresent index ∨
      cause = .insertionsExhausted ∨ cause = .nodesExhausted forest.options.limit := by
  have hwritable := h.writable
  cases hrefuses with
  | axes haxes => exact absurd hwritable.dims_eq haxes
  | range => exact .inl rfl
  | present => exact .inr (.inl rfl)
  | counter => exact .inr (.inr (.inl rfl))
  | building haxes hrange habsent hroom hbuild =>
    rw [not_or, Nat.not_le] at hrange
    have hbuildable : Tree.Buildable source forest.options (forest.merged index) none := by
      refine ⟨hwritable.valid, haxes ▸ hwritable.dims_ne_zero, haxes ▸ hwritable.dims_le,
        List.append_ne_nil_of_right_ne_nil _ (List.cons_ne_nil _ _), ?_, nofun⟩
      intro other hother
      refine hcomplete other ?_
      rcases mem_merged.mp hother with rfl | ⟨lower, -, below, hbelow, hlive⟩
      · exact hrange.1
      · exact (hwritable.built lower below hbelow).inside other (Plot.mem_livePoints.mp hlive).1
    rcases hbuildable.ends with ⟨tree, htree⟩ | hfull
    · nomatch hbuild.symm.trans htree
    · exact .inr (.inr (.inr (Except.error.inj (hbuild.symm.trans hfull))))

/-- An insertion in place that fails leaves the forest as it was, and a range of insertions leaves
what the insertions before the first that fails leave, and fails as that one does. Over a source
with all its coordinates an insertion fails for one of four causes if the axes agree. -/
theorem insertions_atomic [LawfulCoordinate N] (forest : Forest N D) (source : Source N) :
    (∀ index,
      (∃ final, forest.insert source index = .ok final ∧
        (insertInPlace source index).outcome forest = (.ok ⟨⟩, final)) ∨
      ∃ cause, forest.Refuses source index cause ∧ forest.insert source index = .error cause ∧
        (insertInPlace source index).outcome forest = (.error cause, forest)) ∧
    (∀ first last,
      (∃ final, (List.range' first (last - first)).foldlM (insert · source) forest = .ok final ∧
        insertRange source (last - first) first forest = (final, none) ∧
        (insertRangeInPlace source first last).outcome forest = (.ok ⟨⟩, final)) ∨
      ∃ stop cause middle, first ≤ stop ∧ stop < last ∧
        (List.range' first (stop - first)).foldlM (insert · source) forest = .ok middle ∧
        middle.Refuses source stop cause ∧ middle.insert source stop = .error cause ∧
        insertRange source (last - first) first forest = (middle, some cause) ∧
        (insertRangeInPlace source first last).outcome forest = (.error cause, middle)) ∧
    (History source forest → (∀ index < source.size, source.Complete index) → ∀ index cause,
      forest.Refuses source index cause → cause = .pointOutOfRange index source.size ∨
        cause = .pointPresent index ∨ cause = .insertionsExhausted ∨
        cause = .nodesExhausted forest.options.limit) := by
  refine ⟨fun index => ?_, fun first last => ?_, fun h hcomplete index cause =>
    h.refuses_cases hcomplete⟩
  · rw [outcome_insertInPlace]
    cases hinsert : forest.insert source index with
    | ok final => exact .inl ⟨final, rfl, rfl⟩
    | error cause => exact .inr ⟨cause, insert_eq_error.mp hinsert, rfl, rfl⟩
  · rcases outcome_range source (last - first) first forest with
      hall | ⟨done, hdone, cause, middle, hall, hfail, hrange, hplace⟩
    · exact .inl hall
    · refine .inr ⟨first + done, cause, middle, Nat.le_add_right _ _, by omega, ?_,
        insert_eq_error.mp hfail, hfail, hrange, hplace⟩
      rwa [Nat.add_sub_cancel_left]

/-- The forest over the four bytes after three of them were inserted, each in a leaf of its own and
with at most five nodes to a tree. -/
def fullForest : Forest UInt8 Binary64 :=
  ⟨1, ⟨1, some 5⟩, .squaredEuclidean,
    [some ⟨⟨1, 1, #[2], ⟨[⟨7, 7⟩]⟩, .leaf 0 1⟩, []⟩,
      some ⟨⟨1, 1, #[1, 0], ⟨[⟨1, 3⟩]⟩, .branch 0 2 (.leaf 0 1) (.leaf 1 2)⟩, []⟩],
    3, ⟨#[some 1, some 1, some 0]⟩, 3⟩

/-- The fourth byte would make seven nodes, so it is refused while the tree is built. -/
theorem insertions_atomic_bytes :
    History byteSource fullForest ∧ (∀ index < byteSource.size, byteSource.Complete index) ∧
      ∃ cause, fullForest.Refuses byteSource 3 cause ∧
        (insertInPlace byteSource 3).outcome fullForest = (.error cause, fullForest) ∧
        cause = .nodesExhausted fullForest.options.limit := by
  have hempty : Forest.empty byteSource.dims ⟨1, some 5⟩
      (.squaredEuclidean : Metric UInt8 Binary64) =
      .ok ⟨1, ⟨1, some 5⟩, .squaredEuclidean, [], 0, .empty, 0⟩ := rfl
  have hinsert : Forest.perform byteSource
      ⟨1, ⟨1, some 5⟩, (.squaredEuclidean : Metric UInt8 Binary64), [], 0, .empty, 0⟩
      (.insertRange 4 0) = fullForest := by rfl
  have hhistory : History byteSource fullForest :=
    hinsert ▸ .call (.insertRange 4 0) (.empty hempty)
  have hcomplete : ∀ index < byteSource.size, byteSource.Complete index := by
    unfold Source.Complete
    decide
  have hfail : fullForest.insert byteSource 3 = .error (.nodesExhausted 5) := by rfl
  obtain ⟨hone, -, hcauses⟩ := insertions_atomic fullForest byteSource
  refine ⟨hhistory, hcomplete, ?_⟩
  rcases hone 3 with ⟨final, hfinal, -⟩ | ⟨cause, hrefuses, hinsert, hplace⟩
  · nomatch hfail.symm.trans hfinal
  obtain rfl := Except.error.inj (hinsert.symm.trans hfail)
  refine ⟨_, hrefuses, hplace, ?_⟩
  obtain hcause | hcause | hcause | hcause := hcauses hhistory hcomplete 3 _ hrefuses
  · nomatch hcause
  · nomatch hcause
  · nomatch hcause
  · exact hcause

end Forest

end Proximity
