import Mathlib
import Proximity.Proofs.Forest.Writable

/-!
# Saving a forest

What is saved of a forest is its header and, for each slot, the tree that stands there, a new one
over the points alive if some are not, or nothing. Reading plants the stored trees again, slot by
slot, so whether a forest can be read again depends on these trees and the width of its header.
-/

namespace Proximity

variable {N D : Type} [Coordinate N]

/-- All that is emitted comes out exactly if the first part and the others do. -/
theorem Emission.toBytes_andThen_eq_ok {part : Except Error (List UInt8)} {rest : Emission}
    {bytes : List UInt8} : (andThen part rest).toBytes = .ok bytes ↔
      ∃ first others, part = .ok first ∧ rest.toBytes = .ok others ∧ bytes = first ++ others := by
  obtain ⟨bytes', failure⟩ := rest
  cases part with
  | error e => exact ⟨fun h => (nomatch h), fun ⟨_, _, h, _⟩ => (nomatch h)⟩
  | ok first =>
    cases failure with
    | some e => exact ⟨fun h => (nomatch h), fun ⟨_, _, _, h, _⟩ => (nomatch h)⟩
    | none =>
      constructor
      · intro h
        exact ⟨first, bytes', rfl, rfl, (Except.ok.inj h).symm⟩
      · rintro ⟨_, _, hfirst, hothers, rfl⟩
        obtain rfl := Except.ok.inj hfirst
        obtain rfl := Except.ok.inj hothers
        rfl

omit [Coordinate N] in
/-- A plot from which nothing was removed has all points of its tree alive. -/
theorem Plot.livePoints_of_intact {plot : Plot N} (h : plot.removed = []) :
    plot.livePoints = plot.tree.order.toList := by
  rw [show plot = .ofTree plot.tree from congrArg (Plot.mk plot.tree) h, livePoints_ofTree]
  rfl

namespace Forest

section Storing

/-- What is stored of a slot. -/
inductive Stores (options : BuildOptions) (source : Source N) :
    Option (Plot N) → Option (Tree N) → Prop
  | vacant : Stores options source none none
  | whole {plot} : plot.removed = [] → Stores options source (some plot) (some plot.tree)
  | dead {plot} : plot.removed ≠ [] → plot.livePoints = [] →
      Stores options source (some plot) none
  | rebuilt {plot tree} : plot.removed ≠ [] → plot.livePoints ≠ [] →
      Tree.build source options plot.livePoints none = .ok tree →
      Stores options source (some plot) (some tree)

variable {options : BuildOptions} {source : Source N} {plot : Plot N} {tree : Tree N}

/-- A tree is stored of a slot exactly if a point is alive there. -/
theorem Stores.isSome_iff {stored : Option (Tree N)}
    (h : Stores options source (some plot) stored) (hne : plot.tree.order.toList ≠ []) :
    stored.isSome ↔ plot.livePoints ≠ [] := by
  cases h with
  | whole hremoved => exact ⟨fun _ => Plot.livePoints_of_intact hremoved ▸ hne, fun _ => rfl⟩
  | dead _ hlive => exact ⟨fun h => (nomatch h), fun h => absurd hlive h⟩
  | rebuilt _ hlive _ => exact ⟨fun _ => hlive, fun _ => rfl⟩

variable [LawfulCoordinate N]

/-- What is stored of a slot has the points alive there. -/
theorem Stores.perm {slot : Option (Plot N)} {stored : Option (Tree N)}
    (h : Stores options source slot stored) :
    (stored.elim [] fun tree => tree.order.toList).Perm (slot.elim [] Plot.livePoints) := by
  cases h with
  | vacant => rfl
  | whole hremoved => rw [Option.elim_some, Option.elim_some, Plot.livePoints_of_intact hremoved]
  | dead _ hlive => rw [Option.elim_none, Option.elim_some, hlive]
  | rebuilt _ _ hbuild => exact (Tree.build_eq_ok hbuild).order_perm

/-- A stored tree was built as its options say, like the tree of its slot. -/
theorem Stores.builtBefore (h : Stores options source (some plot) (some tree))
    (hplot : plot.tree.BuiltBefore source options) : tree.BuiltBefore source options := by
  cases h with
  | whole _ => exact hplot
  | rebuilt _ _ hbuild =>
    exact .of_build hbuild fun index hindex =>
      hplot.inside index (Plot.mem_livePoints.mp hindex).1

end Storing

section Writing

variable [Storable N] {options : BuildOptions} {source : Source N}

omit [Coordinate N] in
/-- The bytes of a slot of which a tree, or none, is stored. -/
def written (sourceSize : Nat) (stored : Option (Tree N)) : List UInt8 :=
  stored.elim vacant (occupied · sourceSize)

/-- A slot is written exactly if there is something to store of it. -/
theorem encodeSlot_eq_ok {plot : Option (Plot N)} {part : List UInt8} :
    encodeSlot options source plot = .ok part ↔
      ∃ stored, Stores options source plot stored ∧ part = written source.size stored := by
  cases plot with
  | none =>
    constructor
    · intro h
      exact ⟨none, .vacant, (Except.ok.inj h).symm⟩
    · rintro ⟨_, ⟨⟩, rfl⟩
      rfl
  | some plot =>
    rw [encodeSlot]
    by_cases hremoved : plot.removed = []
    · rw [if_pos (List.isEmpty_iff.mpr hremoved)]
      constructor
      · intro h
        exact ⟨_, .whole hremoved, (Except.ok.inj h).symm⟩
      · rintro ⟨_, hstores, rfl⟩
        cases hstores with
        | whole _ => rfl
        | dead hnot _ => exact absurd hremoved hnot
        | rebuilt hnot _ _ => exact absurd hremoved hnot
    rw [if_neg (mt List.isEmpty_iff.mp hremoved)]
    by_cases hlive : plot.livePoints = []
    · rw [if_pos (List.isEmpty_iff.mpr hlive)]
      constructor
      · intro h
        exact ⟨_, .dead hremoved hlive, (Except.ok.inj h).symm⟩
      · rintro ⟨_, hstores, rfl⟩
        cases hstores with
        | whole hnil => exact absurd hnil hremoved
        | dead _ _ => rfl
        | rebuilt _ hnot _ => exact absurd hlive hnot
    · rw [if_neg (mt List.isEmpty_iff.mp hlive), Outcome.bind_eq_ok]
      constructor
      · rintro ⟨tree, hbuild, h⟩
        exact ⟨_, .rebuilt hremoved hlive hbuild, (Except.ok.inj h).symm⟩
      · rintro ⟨_, hstores, rfl⟩
        cases hstores with
        | whole hnil => exact absurd hnil hremoved
        | dead _ hnil => exact absurd hnil hlive
        | rebuilt _ _ hbuild => exact ⟨_, hbuild, rfl⟩

/-- A forest is saved as its header and what is stored of each slot. -/
theorem save_eq_ok {forest : Forest N D} {bytes : List UInt8} :
    (forest.save source).toBytes = .ok bytes ↔
      ∃ stored, List.Forall₂ (Stores forest.options source) forest.slots stored ∧
        bytes = forest.encodeHeader source.size ++ stored.flatMap (written source.size) := by
  have hslots (slots : List (Option (Plot N))) (bytes : List UInt8) :
      (slots.foldr (fun plot rest => Emission.andThen (encodeSlot forest.options source plot) rest)
        (.ofBytes [])).toBytes = .ok bytes ↔
      ∃ stored, List.Forall₂ (Stores forest.options source) slots stored ∧
        bytes = stored.flatMap (written source.size) := by
    induction slots generalizing bytes with
    | nil =>
      constructor
      · intro h
        exact ⟨[], .nil, (Except.ok.inj h).symm⟩
      · rintro ⟨_, ⟨⟩, rfl⟩
        rfl
    | cons plot slots ih =>
      rw [List.foldr_cons, Emission.toBytes_andThen_eq_ok]
      constructor
      · rintro ⟨first, others, hfirst, hothers, rfl⟩
        obtain ⟨one, hone, rfl⟩ := encodeSlot_eq_ok.mp hfirst
        obtain ⟨stored, hstored, rfl⟩ := (ih others).mp hothers
        exact ⟨one :: stored, .cons hone hstored, rfl⟩
      · rintro ⟨_, hall, rfl⟩
        obtain ⟨one, stored, hone, hstored, rfl⟩ := List.forall₂_cons_left_iff.mp hall
        exact ⟨_, _, encodeSlot_eq_ok.mpr ⟨one, hone, rfl⟩, (ih _).mpr ⟨stored, hstored, rfl⟩, rfl⟩
  rw [save, Emission.toBytes_andThen_eq_ok]
  constructor
  · rintro ⟨_, others, hheader, hothers, rfl⟩
    obtain rfl := Except.ok.inj hheader
    obtain ⟨stored, hstored, rfl⟩ := (hslots _ _).mp hothers
    exact ⟨stored, hstored, rfl⟩
  · rintro ⟨stored, hstored, rfl⟩
    exact ⟨_, _, rfl, (hslots _ _).mpr ⟨stored, hstored, rfl⟩, rfl⟩

end Writing

section Replanting

/-- The forest with stored trees put in the slots after those it has. -/
def replant : List (Option (Tree N)) → Forest N D → Forest N D
  | [], forest => forest
  | none :: rest, forest => replant rest forest.skip
  | some tree :: rest, forest =>
    replant rest (forest.plant tree
      (forest.directory.putAll forest.slots.length tree.order.toList))

omit [Coordinate N] in
/-- Planted trees come after the slots that were there, in their order. -/
theorem replant_slots (stored : List (Option (Tree N))) (forest : Forest N D) :
    (forest.replant stored).slots = forest.slots ++ stored.map (Option.map Plot.ofTree) := by
  induction stored generalizing forest with
  | nil => simp [replant]
  | cons first stored ih => cases first <;> simp [replant, ih, skip, plant]

omit [Coordinate N] in
/-- Replanting changes nothing but the slots and what follows from them. -/
theorem replant_frame (stored : List (Option (Tree N))) (forest : Forest N D) :
    (forest.replant stored).dims = forest.dims ∧
      (forest.replant stored).options = forest.options ∧
      (forest.replant stored).metric = forest.metric ∧
      (forest.replant stored).counter = forest.counter := by
  induction stored generalizing forest with
  | nil => simp [replant]
  | cons first stored ih => cases first <;> simp [replant, ih, skip, plant]

omit [Coordinate N] in
/-- Planting points inside a bound keeps the directory inside it. -/
theorem replant_directory_le {stored : List (Option (Tree N))} {forest : Forest N D} {bound : Nat}
    (h : forest.directory.size ≤ bound)
    (hinside : ∀ tree, some tree ∈ stored → ∀ index ∈ tree.order.toList, index < bound) :
    (forest.replant stored).directory.size ≤ bound := by
  induction stored generalizing forest with
  | nil => exact h
  | cons first stored ih =>
    have hrest (tree) (htree : some tree ∈ stored) := hinside tree (List.mem_cons_of_mem _ htree)
    cases first with
    | none => exact ih h hrest
    | some tree => exact ih (Directory.size_putAll_le h (hinside tree List.mem_cons_self)) hrest

/-- Whether stored trees can be put in the slots after those that a forest has: their digits of the
counter are set, none has more nodes than are allowed, and no point is put twice. -/
structure Admits (forest : Forest N D) (stored : List (Option (Tree N))) : Prop where
  counted : ∀ place tree, stored[place]? = some (some tree) →
    forest.counter.testBit (forest.slots.length + place) = true
  dims_eq : ∀ tree, some tree ∈ stored → tree.dims = forest.dims
  capped : ∀ tree, some tree ∈ stored → ∀ limit, forest.options.maxNodes = some limit →
    tree.nodes ≤ limit
  nodup : (stored.flatMap fun tree => tree.elim [] fun tree => tree.order.toList).Nodup
  absent : ∀ tree, some tree ∈ stored → ∀ index ∈ tree.order.toList,
    forest.directory.slot? index = none

variable {forest : Forest N D} {tree : Tree N} {stored : List (Option (Tree N))}

omit [Coordinate N] in
/-- A slot without a tree leaves the others to be planted. -/
theorem Admits.skip (h : forest.Admits (none :: stored)) : forest.skip.Admits stored where
  counted place tree htree := by
    have hcounted := h.counted (place + 1) tree htree
    show forest.counter.testBit ((forest.slots ++ [none]).length + place) = true
    rwa [List.length_append, List.length_singleton, Nat.add_assoc, Nat.add_comm 1]
  dims_eq tree htree := h.dims_eq tree (List.mem_cons_of_mem _ htree)
  capped tree htree := h.capped tree (List.mem_cons_of_mem _ htree)
  nodup := h.nodup
  absent tree htree := h.absent tree (List.mem_cons_of_mem _ htree)

omit [Coordinate N] in
/-- A tree that is planted leaves the others to be planted. -/
theorem Admits.plant (h : forest.Admits (some tree :: stored)) :
    (forest.plant tree (forest.directory.putAll forest.slots.length tree.order.toList)).Admits
      stored where
  counted place other hother := by
    have hcounted := h.counted (place + 1) other hother
    show forest.counter.testBit ((forest.slots ++ [_]).length + place) = true
    rwa [List.length_append, List.length_singleton, Nat.add_assoc, Nat.add_comm 1]
  dims_eq other hother := h.dims_eq other (List.mem_cons_of_mem _ hother)
  capped other hother := h.capped other (List.mem_cons_of_mem _ hother)
  nodup := (List.nodup_append.mp h.nodup).2.1
  absent other hother index hindex := by
    have hnew : index ∉ tree.order.toList := by
      intro hold
      refine (List.nodup_append.mp h.nodup).2.2 index hold index ?_ rfl
      exact List.mem_flatMap.mpr ⟨some other, hother, hindex⟩
    show (forest.directory.putAll _ _).slot? index = none
    rw [Directory.slot?_putAll, if_neg hnew]
    exact h.absent other (List.mem_cons_of_mem _ hother) index hindex

variable [Storable N]

/-- Trees are read from what was written of them, and put where they are admitted, exactly if each
of them is readable. -/
theorem readSlots_written {sourceSize : Nat} (h : forest.Admits stored)
    (hread : ∀ tree, some tree ∈ stored → ∀ rest ending result,
      Tree.read ⟨tree.encode sourceSize ++ rest, ending⟩ = .ok result ↔
        tree.Readable ∧ result = ((tree, sourceSize), ⟨rest, ending⟩))
    {rest : List UInt8} {ending : Ending} {result : Forest N D × Stream} :
    readSlots sourceSize stored.length forest
        ⟨stored.flatMap (written sourceSize) ++ rest, ending⟩ = .ok result ↔
      (∀ tree, some tree ∈ stored → tree.Readable) ∧
        result = (forest.replant stored, ⟨rest, ending⟩) := by
  induction stored generalizing forest with
  | nil =>
    constructor
    · intro h
      exact ⟨fun _ h => absurd h List.not_mem_nil, (Except.ok.inj h).symm⟩
    · rintro ⟨-, rfl⟩
      rfl
  | cons first stored ih =>
    have hread' (tree) (htree : some tree ∈ stored) := hread tree (List.mem_cons_of_mem _ htree)
    rw [List.length_cons, readSlots_succ_eq_ok, List.flatMap_cons, List.append_assoc]
    cases first with
    | none =>
      have hpresent : Reader.word 1 ⟨written sourceSize (none : Option (Tree N)) ++
          (stored.flatMap (written sourceSize) ++ rest), ending⟩ =
          .ok (0, ⟨stored.flatMap (written sourceSize) ++ rest, ending⟩) :=
        Reader.word_toBytes (by decide)
      simp only [List.mem_cons, reduceCtorEq, false_or]
      rw [replant, ← ih h.skip hread']
      constructor
      · rintro ⟨present, after, hword', ⟨-, hrest⟩ | ⟨hne, -⟩⟩
        · cases hpresent.symm.trans hword'
          exact hrest
        · cases hpresent.symm.trans hword'
          exact absurd rfl hne
      · intro hrest
        exact ⟨_, _, hpresent, .inl ⟨rfl, hrest⟩⟩
    | some tree =>
      have hpresent : Reader.word 1 ⟨LittleEndian.toBytes 1 1 ++ (tree.encode sourceSize ++
          (stored.flatMap (written sourceSize) ++ rest)), ending⟩ =
          .ok (1, ⟨tree.encode sourceSize ++ (stored.flatMap (written sourceSize) ++ rest),
            ending⟩) := Reader.word_toBytes (by decide)
      have hwritten : written sourceSize (some tree) ++
          (stored.flatMap (written sourceSize) ++ rest) = LittleEndian.toBytes 1 1 ++
            (tree.encode sourceSize ++ (stored.flatMap (written sourceSize) ++ rest)) :=
        List.append_assoc ..
      have hput : putDistinct forest.slots.length tree.order.toList forest.directory =
          .ok (forest.directory.putAll forest.slots.length tree.order.toList) :=
        putDistinct_eq_ok.mpr ⟨(List.nodup_append.mp h.nodup).1,
          h.absent tree List.mem_cons_self, rfl⟩
      have hcounted : forest.counter.testBit forest.slots.length = true := h.counted 0 tree rfl
      simp only [List.mem_cons, Option.some.injEq, forall_eq_or_imp]
      rw [hwritten, replant, and_assoc, ← ih h.plant hread']
      constructor
      · rintro ⟨present, after, hword', ⟨hzero, -⟩ |
          ⟨-, -, other, after', htree, -, -, directory, hput', hrest⟩⟩
        · cases hpresent.symm.trans hword'
          exact absurd hzero Nat.one_ne_zero
        · cases hpresent.symm.trans hword'
          obtain ⟨hreadable, hresult⟩ := (hread tree List.mem_cons_self ..).mp htree
          cases hresult
          obtain rfl := Except.ok.inj (hput.symm.trans hput')
          exact ⟨hreadable, hrest⟩
      · rintro ⟨hreadable, hrest⟩
        refine ⟨1, _, hpresent, .inr ⟨Nat.one_ne_zero, hcounted, tree, _,
          (hread tree List.mem_cons_self ..).mpr ⟨hreadable, rfl⟩,
          h.dims_eq tree List.mem_cons_self, h.capped tree List.mem_cons_self, _, hput, hrest⟩⟩

end Replanting

section Loading

variable [LawfulCoordinate N] {forest : Forest N D} {source : Source N}
variable {stored : List (Option (Tree N))}

omit [LawfulCoordinate N] in
/-- Of every stored tree there is a plot that it was stored of, in the slot at its place. -/
theorem plot_of_stored (hstored : List.Forall₂ (Stores forest.options source) forest.slots stored)
    {place : Nat} {tree : Tree N} (htree : stored[place]? = some (some tree)) :
    ∃ plot, forest.plot? place = some plot ∧
      Stores forest.options source (some plot) (some tree) := by
  obtain ⟨hplace, htree⟩ := List.getElem?_eq_some_iff.mp htree
  have hlt : place < forest.slots.length := hstored.length_eq ▸ hplace
  have hstores := hstored.get hlt hplace
  rw [List.get_eq_getElem, List.get_eq_getElem, htree] at hstores
  cases hplot : forest.slots[place] with
  | none =>
    rw [hplot] at hstores
    nomatch hstores
  | some plot =>
    rw [hplot] at hstores
    exact ⟨plot, plot?_eq_some.mpr (hplot ▸ List.getElem?_eq_getElem hlt), hstores⟩

/-- The points of the stored trees are the points alive. -/
theorem stored_perm (hstored : List.Forall₂ (Stores forest.options source) forest.slots stored) :
    (stored.flatMap fun tree => tree.elim [] fun tree => tree.order.toList).Perm forest.live := by
  rw [live]
  generalize forest.slots = slots at hstored
  induction hstored with
  | nil => rfl
  | cons hfirst _ ih =>
    rw [List.flatMap_cons, List.flatMap_cons]
    exact hfirst.perm.append ih

/-- The forest without its points, with a cap and a metric of its own. -/
def cleared (forest : Forest N D) (maxNodes : Option Nat) (metric : Metric N D) : Forest N D :=
  ⟨forest.dims, ⟨forest.options.leafSize, maxNodes⟩, metric, [], forest.counter, .empty, 0⟩

/-- What is stored of a slot was built with the options of the forest. -/
theorem Writable.stored_builtBefore (h : forest.Writable source)
    (hstored : List.Forall₂ (Stores forest.options source) forest.slots stored) {tree : Tree N}
    (htree : some tree ∈ stored) : tree.BuiltBefore source forest.options := by
  obtain ⟨place, hplace⟩ := List.getElem?_of_mem htree
  obtain ⟨plot, hplot, hstores⟩ := plot_of_stored hstored hplace
  exact hstores.builtBefore (h.built place plot hplot)

/-- Every tree that is stored is readable if the points alive in each slot are spanned. -/
theorem Writable.stored_readable (h : forest.Writable source)
    (hstored : List.Forall₂ (Stores forest.options source) forest.slots stored)
    (hspanned : ∀ slot plot, forest.plot? slot = some plot → plot.livePoints ≠ [] →
      source.Spanned plot.livePoints) {tree : Tree N} (htree : some tree ∈ stored) :
    tree.Readable := by
  obtain ⟨place, hplace⟩ := List.getElem?_of_mem htree
  obtain ⟨plot, hplot, hstores⟩ := plot_of_stored hstored hplace
  have hbuilt := h.built place plot hplot
  have hlive := (hstores.isSome_iff hbuilt.order_ne_nil).mp rfl
  exact (hstores.builtBefore hbuilt).readable_of_spanned
    ((hspanned place plot hplot hlive).congr hstores.perm)

/-- Every tree that is stored is readable exactly if the points alive in each slot are spanned. -/
theorem Writable.stored_readable_iff (h : forest.Writable source)
    (hrange : (Coordinate.lowest : N) < Coordinate.highest)
    (hstored : List.Forall₂ (Stores forest.options source) forest.slots stored) :
    (∀ tree, some tree ∈ stored → tree.Readable) ↔ ∀ slot plot, forest.plot? slot = some plot →
      plot.livePoints ≠ [] → source.Spanned plot.livePoints := by
  refine ⟨?_, fun hspanned tree => h.stored_readable hstored hspanned⟩
  intro hreadable slot plot hplot hlive
  have hbuilt := h.built slot plot hplot
  obtain ⟨hlt, hplot⟩ := List.getElem?_eq_some_iff.mp (plot?_eq_some.mp hplot)
  have hlt' : slot < stored.length := hstored.length_eq ▸ hlt
  have hstores : Stores forest.options source (some plot) stored[slot] := by
    have hget := hstored.get hlt hlt'
    rwa [List.get_eq_getElem, List.get_eq_getElem, hplot] at hget
  obtain ⟨tree, htree⟩ := Option.isSome_iff_exists.mp
    ((hstores.isSome_iff hbuilt.order_ne_nil).mpr hlive)
  rw [htree] at hstores
  have hspanned := ((hstores.builtBefore hbuilt).readable_iff hrange).mp
    (hreadable tree (htree ▸ List.getElem_mem hlt'))
  exact hspanned.congr hstores.perm.symm

/-- What was stored of a forest is admitted into an empty one that has counted as much. -/
theorem Writable.admits (h : forest.Writable source)
    (hstored : List.Forall₂ (Stores forest.options source) forest.slots stored)
    {maxNodes : Option Nat} {metric : Metric N D}
    (hcap : ∀ tree, some tree ∈ stored → ∀ limit, maxNodes = some limit → tree.nodes ≤ limit) :
    (forest.cleared maxNodes metric).Admits stored where
  counted place tree htree := by
    obtain ⟨plot, hplot, -⟩ := plot_of_stored hstored htree
    rw [show (forest.cleared maxNodes metric).slots.length + place = place from Nat.zero_add _]
    exact h.sound.counted place plot hplot
  dims_eq _ htree := (h.stored_builtBefore hstored htree).dims_eq.trans h.dims_eq
  capped := hcap
  nodup := (stored_perm hstored).nodup_iff.mpr h.sound.live_nodup
  absent _ _ _ _ := rfl

variable [Storable N]

omit [Coordinate N] [LawfulCoordinate N] in
/-- The words of a header are found at their offsets, but for the size of the source if that is too
large. -/
theorem header_words (hdims : forest.dims ≤ maxWord16) (hvalid : forest.options.leafSize ≤ maxWord32)
    (hcounter : forest.counter ≤ maxWord64) (hslots : forest.slots.length ≤ maxSlots)
    (sourceSize : Nat) :
    wordAt (forest.encodeHeader sourceSize) 2 2 = forest.dims ∧
    wordAt (forest.encodeHeader sourceSize) 4 4 = forest.options.leafSize ∧
    (wordAt (forest.encodeHeader sourceSize) 8 4 = sourceSize ↔ sourceSize ≤ maxWord32) ∧
    wordAt (forest.encodeHeader sourceSize) 12 8 = forest.counter ∧
    wordAt (forest.encodeHeader sourceSize) 20 1 = forest.slots.length := by
  have hword64 : maxWord64 < LittleEndian.capacity 8 := by decide
  have hwordSlots : maxSlots < LittleEndian.capacity 1 := by decide
  refine ⟨wordAt_eq rfl (hdims.trans_lt maxWord16_lt), wordAt_eq rfl (hvalid.trans_lt maxWord32_lt),
    ⟨?_, ?_⟩, wordAt_eq rfl (hcounter.trans_lt hword64), wordAt_eq rfl (hslots.trans_lt hwordSlots)⟩
  · intro heq
    exact heq ▸ Nat.le_of_lt_succ (wordAt_lt (forest.encodeHeader sourceSize) 8 4)
  · exact fun hle => wordAt_eq rfl (hle.trans_lt maxWord32_lt)

/-- A forest is loaded from its bytes exactly if the size of its source fits the header and every
tree that is stored is readable. -/
theorem Writable.load_iff (h : forest.Writable source)
    (hstored : List.Forall₂ (Stores forest.options source) forest.slots stored)
    {maxNodes : Option Nat} {metric : Metric N D}
    (hcap : ∀ tree, some tree ∈ stored → ∀ limit, maxNodes = some limit → tree.nodes ≤ limit)
    {result : Forest N D × Stream} :
    load source maxNodes metric (Stream.ofBytes
        (forest.encodeHeader source.size ++ stored.flatMap (written source.size))) = .ok result ↔
      source.size ≤ maxWord32 ∧ (∀ tree, some tree ∈ stored → tree.Readable) ∧
        result = ((forest.cleared maxNodes metric).replant stored, ⟨[], .closed⟩) := by
  obtain ⟨hdims, hleaf, hsource, hcounter, hslots⟩ := header_words h.dims_le
    (BuildOptions.validate_eq_ok.mp h.valid).2 h.sound.counter_le h.slots_le source.size
  have htake : Reader.take headerSize (Stream.ofBytes
      (forest.encodeHeader source.size ++ stored.flatMap (written source.size))) =
      .ok (forest.encodeHeader source.size, ⟨stored.flatMap (written source.size), .closed⟩) :=
    Reader.take_append rfl
  have hcheck : checkHeader N forestMark .noForestFormat (forest.encodeHeader source.size) =
      .ok () := Tree.checkHeader_eq_ok (wordAt_eq rfl (by decide)) (wordAt_eq rfl Tree.formatByte_lt)
  have hshift : forest.counter >>> forest.slots.length = 0 := by
    refine Nat.eq_of_testBit_eq fun digit => ?_
    rw [Nat.testBit_shiftRight, h.digits _ (Nat.le_add_right _ _), Nat.zero_testBit]
  have hadmits : (forest.cleared maxNodes metric).Admits stored := h.admits hstored hcap
  have hnodup (tree) (htree : some tree ∈ stored) : tree.order.toList.Nodup :=
    (List.nodup_flatMap.mp hadmits.nodup).1 _ htree
  have hrest (hword : source.size ≤ maxWord32) :
      readSlots source.size forest.slots.length (forest.cleared maxNodes metric)
        ⟨stored.flatMap (written source.size), .closed⟩ = .ok result ↔
      (∀ tree, some tree ∈ stored → tree.Readable) ∧
        result = ((forest.cleared maxNodes metric).replant stored, ⟨[], .closed⟩) := by
    rw [hstored.length_eq, ← List.append_nil (stored.flatMap (written source.size))]
    exact readSlots_written hadmits fun tree htree =>
      (h.stored_builtBefore hstored htree).read_encode_iff (hnodup tree htree) hword
  rw [load_eq_ok]
  constructor
  · rintro ⟨header, after, hheader, -, -, hsize, -, -, begun, hempty, hslots'⟩
    cases htake.symm.trans hheader
    obtain ⟨-, -, -, rfl⟩ := empty_eq_ok.mp hempty
    have hword := hsource.mp hsize
    rw [hdims, hleaf, hsize, hcounter, hslots] at hslots'
    exact ⟨hword, (hrest hword).mp hslots'⟩
  · rintro ⟨hword, hstored'⟩
    refine ⟨_, _, htake, hcheck, hdims.trans h.dims_eq.symm, hsource.mpr hword, ?_, ?_, _,
      empty_eq_ok.mpr ⟨?_, ?_, ?_, rfl⟩, ?_⟩
    · exact hslots.symm ▸ h.slots_le
    · rw [hcounter, hslots, hshift]
    · rw [hleaf]
      exact h.valid
    · exact hdims.symm ▸ h.dims_ne_zero
    · exact hdims.symm ▸ h.dims_le
    · rw [hdims, hleaf, hsource.mpr hword, hcounter, hslots]
      exact (hrest hword).mpr hstored'

end Loading

end Forest

end Proximity
