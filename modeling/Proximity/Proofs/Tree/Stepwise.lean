import Mathlib
import Proximity.Proofs.Tree.Growth
import Proximity.Proofs.Tree.Table
import Proximity.Tree.Stepwise

/-!
# Step by step and all at once

Whatever waits below it on the stack, a node takes as many steps as it has nodes, and these do
what the recursion does: built and read nodes are laid out in the table the same way, and nodes
are written in the order in which they are read.
-/

namespace Proximity

variable {N : Type}

section Steps

variable {m : Type → Type} [Monad m] [LawfulMonad m] {σ : Type}

theorem steps_add (step : σ → m σ) (count more : Nat) (state : σ) :
    steps step (count + more) state = steps step count state >>= steps step more := by
  induction count generalizing state with
  | zero => simp only [Nat.zero_add, steps, pure_bind]
  | succ count ih =>
    rw [Nat.succ_add]
    simp only [steps, bind_assoc]
    congr 1
    ext next
    exact ih next

theorem steps_one (step : σ → m σ) (state : σ) : steps step 1 state = step state := by
  simp only [steps, bind_pure]

/-- A branch takes its own step and those of its children. -/
theorem steps_branch (step : σ → m σ) (axis : Nat) (split : N) (left right : Node N) (state : σ) :
    steps step (Node.branch axis split left right).count state =
      step state >>= fun state => steps step left.count state >>= steps step right.count := by
  rw [Node.count, Nat.add_assoc, Nat.add_comm 1, steps]
  congr 1
  ext next
  exact steps_add step _ _ next

end Steps

namespace Tree

section Building

variable [Coordinate N] [LawfulCoordinate N] {source : Source N} {options : BuildOptions}
variable {table : Table (Cell N)} {place first : Nat} {box : Box N} {tasks : List (Task N)}
variable {before points after : List Nat}

omit [LawfulCoordinate N] in
/-- Few points become a leaf, whose ends are stored as words. -/
theorem buildStep_leaf (hfits : points.length ≤ options.leafSize) (order : List Nat) :
    buildStep source options ⟨table, order, ⟨place, first, first + points.length, box⟩ :: tasks⟩ =
      .ok ⟨table.set place (.leaf (toWord32 first) (toWord32 (first + points.length))), order,
        tasks⟩ :=
  if_pos (by simpa only [Nat.add_sub_cancel_left] using hfits)

omit [LawfulCoordinate N] in
/-- A range that is cut gets its points rearranged and two new places. -/
theorem buildStep_branch {cut : Cut N} {lower upper : Box N} {one two : Table (Cell N)}
    (hmany : ¬ points.length ≤ options.leafSize) (hfirst : before.length = first)
    (hcut : source.cut box points = .ok cut) (hlower : source.boxAround cut.below = .ok lower)
    (hupper : source.boxAround cut.above = .ok upper) (hone : table.push .vacant = .ok one)
    (htwo : one.push .vacant = .ok two) :
    buildStep source options ⟨table, before ++ points ++ after,
        ⟨place, first, first + points.length, box⟩ :: tasks⟩ =
      .ok ⟨two.set place (.branch cut.axis cut.split table.size one.size),
        before ++ (cut.below ++ cut.above) ++ after,
        ⟨table.size, first, first + cut.below.length, lower⟩ ::
          ⟨one.size, first + cut.below.length, first + points.length, upper⟩ :: tasks⟩ := by
  have hlast : (before ++ points).length = first + points.length := by
    rw [List.length_append, hfirst]
  have htake : (before ++ points ++ after).take (first + points.length) = before ++ points :=
    List.take_left' hlast
  have hdrop : (before ++ points ++ after).drop (first + points.length) = after :=
    List.drop_left' hlast
  have hbefore : (before ++ points ++ after).take first = before := by
    rw [List.append_assoc]
    exact List.take_left' hfirst
  have hrange : (before ++ points).drop first = points := List.drop_left' hfirst
  have hmany : ¬ first + points.length - first ≤ options.leafSize := by
    rwa [Nat.add_sub_cancel_left]
  rw [buildStep]
  dsimp only
  rw [if_neg hmany, htake, hrange, hdrop, hbefore]
  refine Outcome.bind_eq_ok.mpr ⟨cut, hcut, ?_⟩
  refine Outcome.bind_eq_ok.mpr ⟨one, hone, Outcome.bind_eq_ok.mpr ⟨two, htwo, ?_⟩⟩
  exact Outcome.bind_eq_ok.mpr ⟨lower, hlower, Outcome.bind_eq_ok.mpr ⟨upper, hupper, rfl⟩⟩

/-- A subtree is built step by step as it is grown. -/
theorem steps_buildStep {levels count : Nat} {growth : Growth N}
    (h : grow source options levels count first box points = .ok growth)
    (hsize : table.size = count) (hcap : table.cap = options.maxNodes)
    (hcount : count ≤ maxWord32) (hfirst : before.length = first) :
    ∃ final, growth.node.layOut place table = .ok final ∧ final.size = growth.count ∧
      steps (buildStep source options) growth.node.count ⟨table, before ++ points ++ after,
        ⟨place, first, first + points.length, box⟩ :: tasks⟩ =
        .ok ⟨final, before ++ growth.order ++ after, tasks⟩ := by
  induction levels generalizing count first box points growth table place before after tasks with
  | zero => nomatch h
  | succ levels ih =>
    rw [grow] at h
    split at h
    · next hfits =>
      obtain rfl := Except.ok.inj h
      exact ⟨_, rfl, hsize, (steps_one _ _).trans (buildStep_leaf hfits _)⟩
    · next hfits =>
      obtain ⟨cut, hcut, h⟩ := Outcome.bind_eq_ok.mp h
      obtain ⟨_, hroom, h⟩ := Outcome.bind_eq_ok.mp h
      obtain ⟨_, hroom', h⟩ := Outcome.bind_eq_ok.mp h
      obtain ⟨lower, hlower, h⟩ := Outcome.bind_eq_ok.mp h
      obtain ⟨upper, hupper, h⟩ := Outcome.bind_eq_ok.mp h
      obtain ⟨left, hleft, h⟩ := Outcome.bind_eq_ok.mp h
      obtain ⟨right, hright, h⟩ := Outcome.bind_eq_ok.mp h
      obtain rfl := Except.ok.inj h
      obtain ⟨hle, -⟩ := BuildOptions.requireRoom_eq_ok.mp hroom'
      obtain ⟨⟨_, hgrows, -⟩, -, hleftCount⟩ := grow_eq_ok (by omega) hleft
      -- The two places asked for are those the table hands out.
      rw [BuildOptions.requireRoom, ← hcap, ← hsize] at hroom hroom'
      obtain ⟨one, two, hone, htwo, htwoSize, htwoCap⟩ := Table.push_twice hroom hroom' .vacant
      have hlength := (Source.cut_perm hcut).length_eq
      rw [List.length_append] at hlength
      generalize hnode : two.set place (.branch cut.axis cut.split table.size one.size) = start
      have hstart : start.size = count + 2 ∧ start.cap = options.maxNodes := by
        subst hnode
        exact ⟨htwoSize.trans (congrArg (· + 2) hsize), htwoCap.trans hcap⟩
      obtain ⟨middle, hmiddle, hmiddleSize, hleftSteps⟩ :
          ∃ middle, left.node.layOut table.size start = .ok middle ∧ middle.size = left.count ∧
            steps (buildStep source options) left.node.count
              ⟨start, before ++ cut.below ++ (cut.above ++ after),
                ⟨table.size, first, first + cut.below.length, lower⟩ ::
                  ⟨one.size, first + cut.below.length, first + points.length, upper⟩ :: tasks⟩ =
              .ok ⟨middle, before ++ left.order ++ (cut.above ++ after),
                ⟨one.size, first + cut.below.length, first + points.length, upper⟩ :: tasks⟩ :=
        ih hleft hstart.1 hstart.2 (by omega) hfirst
      have hmiddleCap := (Node.size_layOut hmiddle).2.trans hstart.2
      have hbefore : (before ++ left.order).length = first + cut.below.length := by
        rw [List.length_append, hfirst, hgrows.perm.length_eq]
      obtain ⟨final, hfinal, hfinalSize, hrightSteps⟩ :
          ∃ final, right.node.layOut one.size middle = .ok final ∧ final.size = right.count ∧
            steps (buildStep source options) right.node.count
              ⟨middle, before ++ left.order ++ cut.above ++ after,
                ⟨one.size, first + cut.below.length,
                  first + cut.below.length + cut.above.length, upper⟩ :: tasks⟩ =
              .ok ⟨final, before ++ left.order ++ right.order ++ after, tasks⟩ :=
        ih hright hmiddleSize hmiddleCap hleftCount hbefore
      rw [Nat.add_assoc, hlength] at hrightSteps
      refine ⟨final, ?_, hfinalSize, ?_⟩
      · exact Node.layOut_branch_eq_ok.mpr ⟨one, two, middle, hone, htwo, hnode ▸ hmiddle, hfinal⟩
      · rw [steps_branch, buildStep_branch hfits hfirst hcut hlower hupper hone htwo, hnode]
        simp only [List.append_assoc, Outcome.ok_bind] at hleftSteps hrightSteps ⊢
        rw [hleftSteps, Outcome.ok_bind, hrightSteps]

/-- A tree is built step by step from one range of all its points, and laid out as it is. -/
theorem Built.steps_buildStep {bounds : Option (Box N)} {tree : Tree N}
    (h : Built source options points bounds tree) (chunkLength : Nat) :
    ∃ start final, (Table.empty chunkLength options.maxNodes).push .vacant = .ok start ∧
      tree.table chunkLength options.maxNodes = .ok final ∧
      steps (buildStep source options) tree.nodes
        ⟨start, points, [⟨0, 0, points.length, tree.box⟩]⟩ =
        .ok ⟨final, tree.order.toList, []⟩ := by
  obtain ⟨count, hgrow⟩ := h.grow
  have hroom : requireRoomUnder (Table.empty chunkLength options.maxNodes : Table (Cell N)).cap
      (Table.empty chunkLength options.maxNodes : Table (Cell N)).size = .ok () := h.room
  obtain ⟨start, hstart⟩ := Table.push_of_room hroom .vacant
  obtain ⟨hsize, hcap⟩ := Table.size_push hstart
  obtain ⟨final, hfinal, -, hsteps⟩ : ∃ final, tree.root.layOut 0 start = .ok final ∧
      final.size = count ∧ steps (buildStep source options) tree.nodes
        ⟨start, [] ++ points ++ [], [⟨0, 0, 0 + points.length, tree.box⟩]⟩ =
        .ok ⟨final, [] ++ tree.order.toList ++ [], []⟩ :=
    Tree.steps_buildStep hgrow hsize hcap (by decide) rfl
  refine ⟨start, final, hstart, Outcome.bind_eq_ok.mpr ⟨start, hstart, hfinal⟩, ?_⟩
  simpa only [List.nil_append, List.append_nil, Nat.zero_add] using hsteps

end Building

section Writing

variable [Storable N] {table : Table (Cell N)}

/-- A node is written step by step from the table it stands in. -/
theorem steps_writeStep {node : Node N} {place : Nat} (h : node.Stands table place)
    (bytes : List UInt8) (places : List Nat) :
    steps (writeStep table) node.count ⟨bytes, place :: places⟩ =
      some ⟨bytes ++ node.encode, places⟩ := by
  induction node generalizing place bytes places with
  | leaf first last =>
    rw [Node.count, steps_one, writeStep]
    simp only [show table.get? place = _ from h, Node.encode]
  | branch axis split left right ihl ihr =>
    obtain ⟨leftPlace, rightPlace, hcell, hleft, hright⟩ := h
    rw [steps_branch, writeStep]
    simp only [hcell, Option.bind_eq_bind, Option.bind_some, ihl hleft, ihr hright, Node.encode,
      List.append_assoc]

end Writing

section Reading

variable [Storable N] {dims points announced : Nat} {table : Table (Cell N)}

/-- A step reads a leaf with a range of the points, or a branch on one of the axes with room for its
children among the nodes announced. -/
theorem readStep_eq_ok {place : Nat} {places : List Nat} {next : Reading N}
    {stream after : Stream} :
    readStep dims points announced ⟨table, place :: places⟩ stream = .ok (next, after) ↔
      (∃ first last afterTag afterFirst, Reader.word 1 stream = .ok (0, afterTag) ∧
        Reader.word 4 afterTag = .ok (first, afterFirst) ∧
        Reader.word 4 afterFirst = .ok (last, after) ∧ ¬ (last < first ∨ points < last) ∧
        next = ⟨table.set place (.leaf first last), places⟩) ∨
      ∃ axis split one two afterTag afterAxis, Reader.word 1 stream = .ok (1, afterTag) ∧
        Reader.word 2 afterTag = .ok (axis, afterAxis) ∧
        Reader.coordinate N afterAxis = .ok (split, after) ∧
        ¬ dims ≤ axis ∧ ¬ announced < table.size + 2 ∧
        table.push .vacant = .ok one ∧ one.push .vacant = .ok two ∧
        next = ⟨two.set place (.branch axis split table.size one.size),
          table.size :: one.size :: places⟩ := by
  rw [readStep]
  constructor
  · intro h
    obtain ⟨tag, afterTag, htag, h⟩ := Reader.bind_eq_ok.mp h
    match tag with
    | 0 =>
      obtain ⟨first, afterFirst, hfirst, h⟩ := Reader.bind_eq_ok.mp h
      obtain ⟨last, afterLast, hlast, h⟩ := Reader.bind_eq_ok.mp h
      obtain ⟨hrange, h⟩ := Reader.guard_eq_ok.mp h
      cases Reader.pure_eq_ok.mp h
      exact .inl ⟨first, last, afterTag, afterFirst, htag, hfirst, hlast, hrange, rfl⟩
    | 1 =>
      obtain ⟨axis, afterAxis, haxis, h⟩ := Reader.bind_eq_ok.mp h
      obtain ⟨split, afterSplit, hsplit, h⟩ := Reader.bind_eq_ok.mp h
      obtain ⟨hdims, h⟩ := Reader.guard_eq_ok.mp h
      obtain ⟨hroom, h⟩ := Reader.guard_eq_ok.mp h
      obtain ⟨one, _, hlift, h⟩ := Reader.bind_eq_ok.mp h
      obtain ⟨hone, rfl⟩ := Reader.lift_eq_ok.mp hlift
      obtain ⟨two, _, hlift, h⟩ := Reader.bind_eq_ok.mp h
      obtain ⟨htwo, rfl⟩ := Reader.lift_eq_ok.mp hlift
      cases Reader.pure_eq_ok.mp h
      exact .inr ⟨axis, split, one, two, afterTag, afterAxis, htag, haxis, hsplit, hdims, hroom,
        hone, htwo, rfl⟩
    | tag + 2 => cases h
  · rintro (⟨first, last, afterTag, afterFirst, htag, hfirst, hlast, hrange, rfl⟩ |
      ⟨axis, split, one, two, afterTag, afterAxis, htag, haxis, hsplit, hdims, hroom, hone, htwo,
        rfl⟩)
    · refine Reader.bind_eq_ok.mpr ⟨0, _, htag, ?_⟩
      refine Reader.bind_eq_ok.mpr ⟨first, _, hfirst, ?_⟩
      refine Reader.bind_eq_ok.mpr ⟨last, _, hlast, ?_⟩
      exact Reader.guard_eq_ok.mpr ⟨hrange, rfl⟩
    · refine Reader.bind_eq_ok.mpr ⟨1, _, htag, ?_⟩
      refine Reader.bind_eq_ok.mpr ⟨axis, _, haxis, ?_⟩
      refine Reader.bind_eq_ok.mpr ⟨split, _, hsplit, ?_⟩
      refine Reader.guard_eq_ok.mpr ⟨hdims, Reader.guard_eq_ok.mpr ⟨hroom, ?_⟩⟩
      refine Reader.bind_eq_ok.mpr ⟨one, _, Reader.lift_eq_ok.mpr ⟨hone, rfl⟩, ?_⟩
      exact Reader.bind_eq_ok.mpr ⟨two, _, Reader.lift_eq_ok.mpr ⟨htwo, rfl⟩, rfl⟩

/-- A node is read step by step as it is at once. -/
theorem steps_readStep {levels count final place : Nat} {node : Node N} {stream rest : Stream}
    (h : Node.read dims points announced levels count stream = .ok ((node, final), rest))
    (hsize : table.size = count) (hcap : table.cap = none) (hannounced : announced ≤ maxWord32)
    (places : List Nat) :
    ∃ filled, node.layOut place table = .ok filled ∧ filled.size = final ∧
      steps (readStep dims points announced) node.count ⟨table, place :: places⟩ stream =
        .ok (⟨filled, places⟩, rest) := by
  induction levels generalizing count final place node stream rest table places with
  | zero => nomatch h
  | succ levels ih =>
    rcases Node.read_eq_ok h with
      ⟨first, last, afterTag, afterFirst, htag, hfirst, hlast, hrange, rfl, rfl⟩ |
      ⟨axis, split, left, right, middle, afterTag, afterAxis, afterSplit, afterLeft, htag, haxis,
        hsplit, hdims, hroom, hleft, hright, rfl⟩
    · refine ⟨_, rfl, hsize, ?_⟩
      rw [Node.count, steps_one]
      exact readStep_eq_ok.mpr (.inl
        ⟨first, last, afterTag, afterFirst, htag, hfirst, hlast, hrange, rfl⟩)
    · have huncapped {n : Nat} (hn : n < maxWord32) : requireRoomUnder table.cap n = .ok () := by
        rw [hcap]
        exact requireRoomUnder_eq_ok.mpr (hasRoom_none.mpr hn)
      obtain ⟨one, two, hone, htwo, htwoSize, htwoCap⟩ :=
        Table.push_twice (huncapped (by omega)) (huncapped (by omega)) (.vacant : Cell N)
      generalize hnode : two.set place (.branch axis split table.size one.size) = start
      have hstart : start.size = count + 2 ∧ start.cap = none := by
        subst hnode
        exact ⟨htwoSize.trans (congrArg (· + 2) hsize), htwoCap.trans hcap⟩
      obtain ⟨half, hhalf, hhalfSize, hleftSteps⟩ :=
        ih hleft hstart.1 hstart.2 (one.size :: places)
      have hhalfCap := (Node.size_layOut hhalf).2.trans hstart.2
      obtain ⟨filled, hfilled, hfilledSize, hrightSteps⟩ := ih hright hhalfSize hhalfCap places
      refine ⟨filled, ?_, hfilledSize, ?_⟩
      · exact Node.layOut_branch_eq_ok.mpr ⟨one, two, half, hone, htwo, hnode ▸ hhalf, hfilled⟩
      · rw [steps_branch]
        refine Reader.bind_eq_ok.mpr ⟨⟨start, table.size :: one.size :: places⟩, afterSplit, ?_,
          Reader.bind_eq_ok.mpr ⟨_, _, hleftSteps, hrightSteps⟩⟩
        exact readStep_eq_ok.mpr (.inr ⟨axis, split, one, two, afterTag, afterAxis, htag, haxis,
          hsplit, hdims, hsize ▸ hroom, hone, htwo, by rw [hnode]⟩)

/-- Without a place to read a node for, nothing is read. -/
theorem steps_readStep_nil (table : Table (Cell N)) (count : Nat) (stream : Stream) :
    steps (readStep dims points announced) count ⟨table, []⟩ stream =
      .ok (⟨table, []⟩, stream) := by
  induction count with
  | zero => rfl
  | succ count ih => exact Reader.bind_eq_ok.mpr ⟨⟨table, []⟩, stream, rfl, ih⟩

/-- What is read step by step until no place is left begins with a node that is read at once. -/
theorem read_of_steps {levels count place : Nat} {places : List Nat} {final : Table (Cell N)}
    {stream rest : Stream}
    (h : steps (readStep dims points announced) count ⟨table, place :: places⟩ stream =
      .ok (⟨final, []⟩, rest))
    (hlevels : announced < levels + table.size) (hannounced : table.size ≤ announced) :
    ∃ node filled after,
      Node.read dims points announced levels table.size stream =
        .ok ((node, filled.size), after) ∧
      node.layOut place table = .ok filled ∧ filled.size ≤ announced ∧ node.count ≤ count ∧
      steps (readStep dims points announced) (count - node.count) ⟨filled, places⟩ after =
        .ok (⟨final, []⟩, rest) := by
  -- The steps that follow the left child are those that read the right one, so the induction is on
  -- the number of steps and not on a node.
  induction count using Nat.strong_induction_on
    generalizing levels place places table stream with
  | _ count ih =>
    obtain ⟨levels, rfl⟩ : ∃ n, levels = n + 1 := ⟨levels - 1, by omega⟩
    cases count with
    | zero => cases h
    | succ count =>
      obtain ⟨next, afterStep, hstep, h⟩ := Reader.bind_eq_ok.mp h
      rcases readStep_eq_ok.mp hstep with
        ⟨first, last, afterTag, afterFirst, htag, hfirst, hlast, hrange, rfl⟩ |
        ⟨axis, split, one, two, afterTag, afterAxis, htag, haxis, hsplit, hdims, hroom, hone, htwo,
          rfl⟩
      · refine ⟨.leaf first last, table.set place (.leaf first last), afterStep,
          Node.read_leaf htag hfirst hlast hrange, rfl, hannounced, ?_, ?_⟩
        · rw [Node.count]
          omega
        · rwa [Node.count, Nat.add_sub_cancel]
      · have honeSize := (Table.size_push hone).1
        have htwoSize := (Table.size_push htwo).1
        generalize hstart : two.set place (.branch axis split table.size one.size) = start at h
        have hstartSize : start.size = table.size + 2 := by
          rw [← hstart]
          exact htwoSize.trans (congrArg (· + 1) honeSize)
        obtain ⟨left, half, afterLeft, hleft, hhalf, hhalfLe, hleftCount, h⟩ :=
          ih count (Nat.lt_succ_self _) h (show announced < levels + start.size by omega)
            (by omega)
        have hhalfSize := (Node.size_layOut hhalf).1
        have hposl := left.count_pos
        obtain ⟨right, filled, after, hright, hfilled, hfilledLe, hrightCount, h⟩ :=
          ih (count - left.count) (by omega) h (show announced < levels + half.size by omega)
            hhalfLe
        rw [hstartSize] at hleft
        refine ⟨.branch axis split left right, filled, after,
          Node.read_branch htag haxis hsplit hdims hroom hleft hright,
          Node.layOut_branch_eq_ok.mpr ⟨one, two, half, hone, htwo, hstart ▸ hhalf, hfilled⟩,
          hfilledLe, ?_, ?_⟩
        · rw [Node.count]
          omega
        · rw [Node.count, show count + 1 - (1 + left.count + right.count) =
            count - left.count - right.count by omega]
          exact h

end Reading

end Tree

end Proximity
