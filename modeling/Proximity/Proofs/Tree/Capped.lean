import Mathlib
import Proximity.Proofs.Tree.Progress

/-!
# Building under a cap

A build under a cap goes along with the one without it, node by node, for as long as there is room.
If the tree has more nodes than the cap allows, it is the cap that ends the build, where the node
after the last one allowed is asked for: at the root, at a left child or at a right one. This holds
of the recursion and of the loop, and where the loop comes to its end every node has the same place.
-/

namespace Proximity

/-- Where there is room without a cap, only the cap can refuse one node more. -/
theorem requireRoomUnder_cap {count cap : Nat} (h : requireRoomUnder none count = .ok ())
    (hcount : count ≤ cap) : requireRoomUnder (some cap) count =
      if count < cap then .ok () else .error (.nodesExhausted cap) := by
  have hword := hasRoom_none.mp (requireRoomUnder_eq_ok.mp h)
  have hroom : HasRoom (some cap) count ↔ count < cap :=
    hasRoom_some.trans (and_iff_right hword)
  rw [requireRoomUnder_eq]
  by_cases hlt : count < cap
  · rw [if_pos (hroom.mpr hlt), if_pos hlt]
  · obtain rfl : count = cap := Nat.le_antisymm hcount (Nat.le_of_not_lt hlt)
    rw [if_neg (fun h => hlt (hroom.mp h)), if_neg hlt]

namespace Table

variable {α : Type} {table next : Table α} {cell : α} {cap : Nat}

/-- The same cells under a cap. -/
def under (table : Table α) (cap : Nat) : Table α := { table with cap := some cap }

@[simp] theorem size_under (table : Table α) (cap : Nat) :
    (table.under cap).size = table.size := rfl

@[simp] theorem cap_under (table : Table α) (cap : Nat) : (table.under cap).cap = some cap := rfl

/-- A new cell gets the same place under a cap, unless there are as many cells as it allows. -/
theorem push_under (huncapped : table.cap = none) (hsize : table.size ≤ cap)
    (h : table.push cell = .ok next) : (table.under cap).push cell =
      if next.size ≤ cap then .ok (next.under cap) else .error (.nodesExhausted cap) := by
  obtain ⟨hroom, rfl⟩ := push_eq_ok h
  rw [huncapped] at hroom
  rw [push, cap_under, size_under, requireRoomUnder_cap hroom hsize]
  by_cases hlt : table.size < cap
  · rw [if_pos hlt, if_pos (Nat.succ_le_of_lt hlt)]
    rfl
  · rw [if_neg hlt, if_neg (show ¬ table.size + 1 ≤ cap from hlt)]
    rfl

end Table

namespace Tree

variable {N : Type} [Coordinate N] {source : Source N} {leafSize cap : Nat}

section Growing

variable {levels count first : Nat} {box : Box N} {points : List Nat} {growth : Growth N}

/-- No nodes are taken back. -/
theorem count_le_of_grow {options : BuildOptions} (hcount : count ≤ maxWord32)
    (h : grow source options levels count first box points = .ok growth) :
    count ≤ growth.count := by
  have hsum := (grow_eq_ok hcount h).2.1
  have hpos := growth.node.count_pos
  omega

/-- A subtree is grown under a cap as it is without one, if that makes no more nodes than the cap
allows; otherwise there are as many as that when the nodes are exhausted. -/
theorem grow_under (hword : count ≤ maxWord32) (hcount : count ≤ cap)
    (h : grow source ⟨leafSize, none⟩ levels count first box points = .ok growth) :
    grow source ⟨leafSize, some cap⟩ levels count first box points =
      if growth.count ≤ cap then .ok growth else .error (.nodesExhausted cap) := by
  induction levels generalizing count first box points growth with
  | zero => nomatch h
  | succ levels ih =>
    rw [grow] at h ⊢
    by_cases hfits : points.length ≤ leafSize
    · rw [if_pos hfits] at h ⊢
      obtain rfl := Except.ok.inj h
      exact (if_pos hcount).symm
    rw [if_neg hfits] at h ⊢
    obtain ⟨cut, hcut, h⟩ := Outcome.bind_eq_ok.mp h
    obtain ⟨_, hroom, h⟩ := Outcome.bind_eq_ok.mp h
    obtain ⟨_, hroom', h⟩ := Outcome.bind_eq_ok.mp h
    obtain ⟨lower, hlower, h⟩ := Outcome.bind_eq_ok.mp h
    obtain ⟨upper, hupper, h⟩ := Outcome.bind_eq_ok.mp h
    obtain ⟨left, hleft, h⟩ := Outcome.bind_eq_ok.mp h
    obtain ⟨right, hright, h⟩ := Outcome.bind_eq_ok.mp h
    obtain rfl := Except.ok.inj h
    have hword' := (BuildOptions.requireRoom_eq_ok.mp hroom').1
    have hless := count_le_of_grow hword' hleft
    have hleftWord := (grow_eq_ok hword' hleft).2.2
    have hmore := count_le_of_grow hleftWord hright
    simp only [BuildOptions.requireRoom] at hroom hroom' ⊢
    simp only [hcut, hlower, hupper, Outcome.ok_bind, requireRoomUnder_cap hroom hcount]
    -- Each of the three places where nodes are made may be the one where the cap is met.
    by_cases hfirst : count < cap
    case neg => rw [if_neg hfirst, if_neg (show ¬ right.count ≤ cap by omega), Outcome.error_bind]
    rw [if_pos hfirst, Outcome.ok_bind, requireRoomUnder_cap hroom' hfirst]
    by_cases hsecond : count + 1 < cap
    case neg => rw [if_neg hsecond, if_neg (show ¬ right.count ≤ cap by omega), Outcome.error_bind]
    rw [if_pos hsecond, Outcome.ok_bind, ih hword' hsecond hleft]
    by_cases hfew : left.count ≤ cap
    case neg => rw [if_neg hfew, if_neg (show ¬ right.count ≤ cap by omega), Outcome.error_bind]
    rw [if_pos hfew, Outcome.ok_bind, ih hleftWord hfew hright]
    by_cases hall : right.count ≤ cap
    · rw [if_pos hall, if_pos hall]
      rfl
    · rw [if_neg hall, if_neg hall]
      rfl

end Growing

section Looping

variable {options : BuildOptions} {site next final : Site N} {count : Nat}

/-- What one step of the loop does: nothing if there is no task left, and else it makes the range on
top a leaf, with its ends kept as words, or cuts it and gives its parts the next two places. -/
inductive Advances (source : Source N) (leafSize : Nat) : Site N → Site N → Prop
  | idle {table order} : Advances source leafSize ⟨table, order, []⟩ ⟨table, order, []⟩
  | leaf {table order place first last box tasks} : last - first ≤ leafSize →
      Advances source leafSize ⟨table, order, ⟨place, first, last, box⟩ :: tasks⟩
        ⟨table.set place (.leaf (toWord32 first) (toWord32 last)), order, tasks⟩
  | branch {table one two order place first last box tasks cut lower upper} :
      ¬ last - first ≤ leafSize →
      source.cut box ((order.take last).drop first) = .ok cut →
      table.push .vacant = .ok one → one.push .vacant = .ok two →
      source.boxAround cut.below = .ok lower → source.boxAround cut.above = .ok upper →
      Advances source leafSize ⟨table, order, ⟨place, first, last, box⟩ :: tasks⟩
        ⟨two.set place (.branch cut.axis cut.split table.size one.size),
          order.take first ++ (cut.below ++ cut.above) ++ order.drop last,
          ⟨table.size, first, first + cut.below.length, lower⟩ ::
            ⟨one.size, first + cut.below.length, last, upper⟩ :: tasks⟩

/-- A step that succeeds advances in one of the ways there are. -/
theorem advances_of_buildStep (h : buildStep source options site = .ok next) :
    Advances source options.leafSize site next := by
  obtain ⟨table, order, tasks⟩ := site
  cases tasks with
  | nil =>
    obtain rfl := Except.ok.inj h
    exact .idle
  | cons task tasks =>
    obtain ⟨place, first, last, box⟩ := task
    rw [buildStep] at h
    dsimp only at h
    by_cases hfits : last - first ≤ options.leafSize
    · rw [if_pos hfits] at h
      obtain rfl := Except.ok.inj h
      exact .leaf hfits
    · rw [if_neg hfits] at h
      obtain ⟨cut, hcut, h⟩ := Outcome.bind_eq_ok.mp h
      obtain ⟨one, hone, h⟩ := Outcome.bind_eq_ok.mp h
      obtain ⟨two, htwo, h⟩ := Outcome.bind_eq_ok.mp h
      obtain ⟨lower, hlower, h⟩ := Outcome.bind_eq_ok.mp h
      obtain ⟨upper, hupper, h⟩ := Outcome.bind_eq_ok.mp h
      obtain rfl := Except.ok.inj h
      exact .branch hfits hcut hone htwo hlower hupper

/-- No places are taken back, and the cap stays. -/
theorem Advances.size_le (h : Advances source leafSize site next) :
    site.table.size ≤ next.table.size ∧ next.table.cap = site.table.cap := by
  cases h with
  | idle => exact ⟨le_rfl, rfl⟩
  | leaf _ => exact ⟨le_rfl, rfl⟩
  | @branch table one two order place first last box tasks cut lower upper _ _ hone htwo _ _ =>
    obtain ⟨honeSize, honeCap⟩ := Table.size_push hone
    obtain ⟨htwoSize, htwoCap⟩ := Table.size_push htwo
    refine ⟨?_, htwoCap.trans honeCap⟩
    show table.size ≤ two.size
    omega

/-- Steps take no node away. -/
theorem size_le_of_steps (h : steps (buildStep source options) count site = .ok final) :
    site.table.size ≤ final.table.size := by
  induction count generalizing site with
  | zero =>
    obtain rfl := Except.ok.inj h
    exact le_rfl
  | succ count ih =>
    obtain ⟨next, hstep, h⟩ := Outcome.bind_eq_ok.mp h
    exact (advances_of_buildStep hstep).size_le.1.trans (ih h)

/-- The same site under a cap. -/
def Site.under (site : Site N) (cap : Nat) : Site N := { site with table := site.table.under cap }

/-- A step under a cap is the step without it, unless it needs more places than the cap allows. -/
theorem Advances.buildStep_under (h : Advances source leafSize site next)
    (huncapped : site.table.cap = none) (hsize : site.table.size ≤ cap) :
    buildStep source ⟨leafSize, some cap⟩ (site.under cap) =
      if next.table.size ≤ cap then .ok (next.under cap) else .error (.nodesExhausted cap) := by
  cases h with
  | idle => exact (if_pos hsize).symm
  | leaf hfits => exact (if_pos hfits).trans (if_pos hsize).symm
  | @branch table one two order place first last box tasks cut lower upper hmany hcut hone htwo
      hlower hupper =>
    have honeCap := (Table.size_push hone).2.trans huncapped
    have htwoSize := (Table.size_push htwo).1
    have hfinal (cell : Cell N) : (two.set place cell).size = two.size := rfl
    rw [Site.under, buildStep]
    dsimp only at hsize huncapped ⊢
    simp only [if_neg hmany, hcut, hlower, hupper, Outcome.ok_bind,
      Table.push_under huncapped hsize hone, hfinal]
    by_cases hfirst : one.size ≤ cap
    case neg => rw [if_neg hfirst, if_neg (show ¬ two.size ≤ cap by omega), Outcome.error_bind]
    rw [if_pos hfirst, Outcome.ok_bind, Table.push_under honeCap hfirst htwo]
    by_cases hsecond : two.size ≤ cap
    · rw [if_pos hsecond, if_pos hsecond]
      rfl
    · rw [if_neg hsecond, if_neg hsecond]
      rfl

/-- A run under a cap is the run without it, if that takes no more places than the cap allows;
otherwise it comes to a step that finds the nodes exhausted. -/
theorem steps_under (huncapped : site.table.cap = none) (hsize : site.table.size ≤ cap)
    (h : steps (buildStep source ⟨leafSize, none⟩) count site = .ok final) :
    steps (buildStep source ⟨leafSize, some cap⟩) count (site.under cap) =
      if final.table.size ≤ cap then .ok (final.under cap) else .error (.nodesExhausted cap) := by
  induction count generalizing site with
  | zero =>
    obtain rfl := Except.ok.inj h
    exact (if_pos hsize).symm
  | succ count ih =>
    obtain ⟨next, hstep, h⟩ := Outcome.bind_eq_ok.mp h
    have hadvances := advances_of_buildStep hstep
    rw [steps, hadvances.buildStep_under huncapped hsize]
    by_cases hroom : next.table.size ≤ cap
    · rw [if_pos hroom, Outcome.ok_bind]
      exact ih (hadvances.size_le.2.trans huncapped) hroom h
    · have hless := size_le_of_steps h
      rw [if_neg hroom, if_neg (show ¬ final.table.size ≤ cap by omega), Outcome.error_bind]

/-- The loop that builds a tree: so many steps from one range of all its points. -/
def buildLoop (source : Source N) (options : BuildOptions) (chunkLength count : Nat)
    (points : List Nat) (box : Box N) : Except Error (Site N) := do
  let table ← (Table.empty chunkLength options.maxNodes).push .vacant
  steps (buildStep source options) count ⟨table, points, [⟨0, 0, points.length, box⟩]⟩

theorem buildLoop_under {chunkLength : Nat} {points : List Nat} {box : Box N}
    (h : buildLoop source ⟨leafSize, none⟩ chunkLength count points box = .ok final) :
    buildLoop source ⟨leafSize, some cap⟩ chunkLength count points box =
      if final.table.size ≤ cap then .ok (final.under cap) else .error (.nodesExhausted cap) := by
  obtain ⟨start, hstart, h⟩ := Outcome.bind_eq_ok.mp h
  obtain ⟨hsize, huncapped⟩ := Table.size_push hstart
  have hless : start.size ≤ final.table.size := size_le_of_steps h
  have hroot : (Table.empty chunkLength (some cap)).push (.vacant : Cell N) =
      if start.size ≤ cap then .ok (start.under cap) else .error (.nodesExhausted cap) :=
    Table.push_under rfl (Nat.zero_le cap) hstart
  rw [buildLoop, hroot]
  by_cases hroom : start.size ≤ cap
  · rw [if_pos hroom, Outcome.ok_bind]
    exact steps_under huncapped hroom h
  · rw [if_neg hroom, if_neg (show ¬ final.table.size ≤ cap by omega), Outcome.error_bind]

end Looping

variable {points : List Nat} {bounds : Option (Box N)} {tree : Tree N}

/-- What was built without a cap is grown from the same box under one. -/
theorem Built.build_eq (h : Built source ⟨leafSize, none⟩ points bounds tree) (cap : Nat) :
    build source ⟨leafSize, some cap⟩ points bounds =
      (requireRoomUnder (some cap) 0 >>= fun _ =>
        Tree.grow source ⟨leafSize, some cap⟩ maxWord32 1 0 tree.box points >>= fun growth =>
          .ok ⟨source.dims, leafSize, growth.order.toArray, tree.box, growth.node⟩) := by
  have hvalid : BuildOptions.validate ⟨leafSize, some cap⟩ = .ok () :=
    BuildOptions.validate_eq_ok.mpr ⟨h.leafSize_ne_zero, h.leafSize_le⟩
  exact build_eq_grow hvalid h.dims_ne_zero h.dims_le h.points_ne_nil h.box

/-- A tree is built under a cap if it is built without it and has no more nodes; otherwise there are
as many nodes as the cap allows when they are exhausted. -/
theorem Built.build_under (h : Built source ⟨leafSize, none⟩ points bounds tree) (cap : Nat) :
    build source ⟨leafSize, some cap⟩ points bounds =
      if tree.nodes ≤ cap then .ok tree else .error (.nodesExhausted cap) := by
  obtain ⟨count, hgrow⟩ := h.grow
  have hsum : count + 1 = 1 + tree.root.count := (grow_eq_ok (by decide) hgrow).2.1
  have hnodes : tree.nodes = count := by
    rw [nodes]
    omega
  have hpos : 1 ≤ count := count_le_of_grow (by decide) hgrow
  have hleaf : leafSize = tree.leafSize := h.leafSize_eq.symm
  rw [h.build_eq cap, requireRoomUnder_cap h.room (Nat.zero_le cap), hnodes]
  by_cases hroot : 0 < cap
  case neg => rw [if_neg hroot, if_neg (show ¬ count ≤ cap by omega), Outcome.error_bind]
  rw [if_pos hroot, Outcome.ok_bind, grow_under (by decide) hroot hgrow]
  by_cases hroom : count ≤ cap
  · rw [if_pos hroom, if_pos hroom, Outcome.ok_bind, ← h.dims_eq, hleaf]
  · rw [if_neg hroom, if_neg hroom, Outcome.error_bind]

/-- A cap decides whether a tree is built and nothing else about it. If a tree that is built without
a cap has no more nodes than the cap allows, it is built under the cap too, by the same loop with
every node at the same place; if it has more, the nodes are exhausted, which is the one way in which
the build, or the loop, fails. -/
theorem build_under_cap [LawfulCoordinate N]
    (h : build source ⟨leafSize, none⟩ points bounds = .ok tree) (cap : Nat) :
    (tree.nodes ≤ cap → build source ⟨leafSize, some cap⟩ points bounds = .ok tree) ∧
    (cap < tree.nodes → build source ⟨leafSize, some cap⟩ points bounds =
        .error (.nodesExhausted cap) ∧ (Error.nodesExhausted cap).kind = .allocation) ∧
    ∀ chunkLength, 0 < chunkLength → ∃ table,
      buildLoop source ⟨leafSize, none⟩ chunkLength tree.nodes points tree.box =
        .ok ⟨table, tree.order.toList, []⟩ ∧ table.size = tree.nodes ∧ tree.root.Stands table 0 ∧
      (tree.nodes ≤ cap →
        buildLoop source ⟨leafSize, some cap⟩ chunkLength tree.nodes points tree.box =
          .ok ⟨table.under cap, tree.order.toList, []⟩) ∧
      (cap < tree.nodes →
        buildLoop source ⟨leafSize, some cap⟩ chunkLength tree.nodes points tree.box =
          .error (.nodesExhausted cap)) := by
  have hbuilt := build_eq_ok h
  refine ⟨fun hroom => ?_, fun hfull => ⟨?_, rfl⟩, fun chunkLength hchunk => ?_⟩
  · rw [hbuilt.build_under, if_pos hroom]
  · rw [hbuilt.build_under, if_neg (Nat.not_le.mpr hfull)]
  · obtain ⟨start, table, hstart, hsteps, hsize, hstands, -⟩ := hbuilt.rooted hchunk
    have hloop : buildLoop source ⟨leafSize, none⟩ chunkLength tree.nodes points tree.box =
        .ok ⟨table, tree.order.toList, []⟩ := Outcome.bind_eq_ok.mpr ⟨start, hstart, hsteps⟩
    refine ⟨table, hloop, hsize, hstands, fun hroom => ?_, fun hfull => ?_⟩
    · rw [buildLoop_under hloop, if_pos (hsize.trans_le hroom)]
      rfl
    · rw [buildLoop_under hloop, if_neg fun hle => Nat.not_le.mpr hfull (hsize.ge.trans hle)]

/-- Three bytes in a box that holds all bytes take five nodes, so four are not enough. -/
theorem build_singlesTree_capped :
    build byteSource ⟨1, none⟩ [2, 0, 3] (some ⟨[⟨0, 255⟩]⟩) = .ok singlesTree ∧
    build byteSource ⟨1, some 5⟩ [2, 0, 3] (some ⟨[⟨0, 255⟩]⟩) = .ok singlesTree ∧
    build byteSource ⟨1, some 4⟩ [2, 0, 3] (some ⟨[⟨0, 255⟩]⟩) = .error (.nodesExhausted 4) := by
  have hbuild : build byteSource ⟨1, none⟩ [2, 0, 3] (some ⟨[⟨0, 255⟩]⟩) = .ok singlesTree := by
    decide +kernel
  exact ⟨hbuild, (build_under_cap hbuild 5).1 (by decide),
    ((build_under_cap hbuild 4).2.1 (by decide)).1⟩

end Tree

end Proximity
