import Mathlib
import Proximity.Proofs.Tree.Table
import Proximity.Tree.InPlace

/-!
# Tables as lists

Whatever is asked of a table, one request after the other, is answered as a plain list under the
same cap answers it, and the table stands for that list throughout. So places are handed out in
order for as long as there is room, every place has what was stored there last, and a request that
is refused changes nothing.
-/

namespace Proximity

namespace Table

variable {α β : Type} {table next : Table α}

section Cells

/-- Chunks of one length, all full but the last one, are a list of cells in which each cell has the
place that its chunk and its place in the chunk make. -/
private theorem getElem?_flatMap_chunks {length : Nat} (hpos : 0 < length) {chunks : List (Array α)}
    (size : Nat)
    (hfilled : ∀ (index : Nat) (chunk : Array α), chunks[index]? = some chunk →
      chunk.size = min length (size - index * length))
    (hle : size ≤ chunks.length * length) (hlt : chunks.length * length < size + length)
    (place : Nat) : (chunks.flatMap Array.toList)[place]? =
      (chunks[place / length]?).bind fun chunk => chunk[place % length]? := by
  induction chunks generalizing size place with
  | nil => rfl
  | cons chunk rest ih =>
    have hchunk := hfilled 0 chunk rfl
    rw [Nat.zero_mul, Nat.sub_zero] at hchunk
    rw [List.length_cons, Nat.succ_mul] at hle hlt
    rw [List.flatMap_cons, List.getElem?_append, Array.length_toList]
    by_cases hin : place < chunk.size
    · have hsmall : place < length := by omega
      rw [if_pos hin, Nat.div_eq_of_lt hsmall, Nat.mod_eq_of_lt hsmall, Array.getElem?_toList]
      rfl
    rw [if_neg hin]
    by_cases hfull : length ≤ size
    · have hlength : chunk.size = length := by omega
      have hplace : place = place - length + length := by omega
      have hdiv : place / length = (place - length) / length + 1 := by
        rw [hplace, Nat.add_div_right _ hpos, Nat.add_sub_cancel]
      have hmod : place % length = (place - length) % length := by
        rw [hplace, Nat.add_mod_right, Nat.add_sub_cancel]
      rw [hlength, hdiv, hmod, List.getElem?_cons_succ]
      refine ih (size - length) ?_ (by omega) (by omega) _
      intro index later hlater
      rw [hfilled (index + 1) later hlater, Nat.succ_mul]
      omega
    · -- The first chunk is the last one.
      have hrest : rest = [] := by
        rcases rest with - | ⟨later, rest⟩
        · rfl
        · rw [List.length_cons, Nat.succ_mul] at hlt
          omega
      subst hrest
      rw [List.flatMap_nil, List.getElem?_nil]
      rcases Nat.lt_or_ge place length with hsmall | hlarge
      · rw [Nat.div_eq_of_lt hsmall, Nat.mod_eq_of_lt hsmall]
        exact (Array.getElem?_eq_none (Nat.le_of_not_lt hin)).symm
      · rw [List.getElem?_eq_none (Nat.div_pos hlarge hpos)]
        rfl

/-- The cells of a table are listed by their places. -/
theorem Sound.getElem?_toList (h : table.Sound) (place : Nat) :
    table.toList[place]? = table.get? place := by
  rw [toList, get?_eq, getElem?_flatMap_chunks h.chunkLength_pos table.size
    (fun index chunk hchunk => h.filled index chunk (by simpa using hchunk)) h.size_le h.lt_size]
  simp only [Array.getElem?_toList]

/-- Nothing is found beyond the places that were handed out. -/
theorem Sound.get?_eq_none_iff (h : table.Sound) {place : Nat} :
    table.get? place = none ↔ table.size ≤ place := by
  have hsum := Nat.div_add_mod place table.chunkLength
  rw [Nat.mul_comm] at hsum
  constructor
  · intro hnone
    by_contra hlt
    obtain ⟨chunk, hchunk, hin⟩ := h.get?_isSome (Nat.lt_of_not_le hlt)
    rw [get?_eq, hchunk, Option.bind_some, Array.getElem?_eq_getElem hin] at hnone
    nomatch hnone
  · intro hbeyond
    rw [get?_eq]
    cases hchunk : table.chunks[place / table.chunkLength]? with
    | none => rfl
    | some chunk =>
      have hfilled := h.filled _ _ hchunk
      rw [Option.bind_some, Array.getElem?_eq_none_iff]
      omega

theorem Sound.length_toList (h : table.Sound) : table.toList.length = table.size := by
  refine eq_of_forall_ge_iff fun place => ?_
  rw [← List.getElem?_eq_none_iff, h.getElem?_toList, h.get?_eq_none_iff]

/-- A new cell comes last. -/
theorem Sound.toList_push (h : table.Sound) {cell : α} (hpush : table.push cell = .ok next) :
    next.toList = table.toList ++ [cell] := by
  apply List.ext_getElem?
  intro place
  rw [(h.push hpush).getElem?_toList, h.get?_push hpush, List.getElem?_append, h.length_toList,
    h.getElem?_toList]
  rcases Nat.lt_trichotomy place table.size with hlt | heq | hgt
  · rw [if_neg hlt.ne, if_pos hlt]
  · rw [if_pos heq, if_neg (by omega), heq, Nat.sub_self]
    rfl
  · rw [if_neg hgt.ne', if_neg (by omega), h.get?_eq_none_iff.mpr hgt.le,
      List.getElem?_eq_none (by simpa using by omega)]

/-- A cell that is changed is found at its place, and the others where they were. -/
theorem Sound.get?_set (h : table.Sound) {place : Nat} (hplace : place < table.size) (cell : α)
    (other : Nat) : (table.set place cell).get? other =
      if other = place then some cell else table.get? other := by
  by_cases heq : other = place
  · rw [if_pos heq, heq, h.get?_set_self hplace]
  · rw [if_neg heq, get?_set_ne heq]

/-- A cell that is changed is changed in the list. -/
theorem Sound.toList_set (h : table.Sound) {place : Nat} (hplace : place < table.size) (cell : α) :
    (table.set place cell).toList = table.toList.set place cell := by
  apply List.ext_getElem?
  intro other
  rw [(h.set place cell).getElem?_toList, h.get?_set hplace, List.getElem?_set, h.length_toList,
    h.getElem?_toList, if_pos hplace]
  simp only [eq_comm]

end Cells

section Outcomes

/-- A run that looks at the table first goes on with what it sees. -/
theorem Change.outcome_get_bind (rest : Table α → Change α β) :
    Change.outcome (get >>= rest) table = (rest table).outcome table := rfl

/-- Pushing in place gives the next place and leaves what pushing gives, or else the table as it
was. -/
theorem outcome_pushInPlace (table : Table α) (cell : α) :
    (pushInPlace cell).outcome table =
      match table.push cell with
      | .ok next => (.ok table.size, next)
      | .error cause => (.error cause, table) := by
  unfold pushInPlace push
  rw [Change.outcome_get_bind]
  cases requireRoomUnder table.cap table.size with
  | error cause => rfl
  | ok _ =>
    by_cases hfull : table.size = table.chunks.size * table.chunkLength
    · rw [if_pos hfull]
      simp only [if_pos hfull]
      rfl
    · rw [if_neg hfull]
      simp only [if_neg hfull]
      rfl

theorem outcome_getInPlace (table : Table α) (place : Nat) :
    (getInPlace place).outcome table =
      match table.get? place with
      | some cell => (.ok cell, table)
      | none => (.error (.missingNode place), table) := by
  unfold getInPlace
  rw [Change.outcome_get_bind]
  cases table.get? place <;> rfl

theorem outcome_setInPlace (table : Table α) (place : Nat) (cell : α) :
    (setInPlace place cell).outcome table =
      match table.get? place with
      | some _ => (.ok ⟨⟩, table.set place cell)
      | none => (.error (.missingNode place), table) := by
  unfold setInPlace getInPlace
  rw [bind_assoc, Change.outcome_get_bind]
  cases table.get? place <;> rfl

end Outcomes

/-- What is asked of a table. -/
inductive Request (α : Type) where
  | push (cell : α)
  | set (place : Nat) (cell : α)
  | get (place : Nat)
  deriving DecidableEq, Repr

/-- What it answers. -/
inductive Reply (α : Type) where
  /-- The place that a new cell got. -/
  | placed (place : Nat)
  | stored
  | found (cell : α)
  deriving DecidableEq, Repr

/-- The place that was handed out, if one was. -/
def Reply.place? : Except Error (Reply α) → Option Nat
  | .ok (.placed place) => some place
  | _ => none

namespace Request

/-- What a table answers, and the table afterwards. -/
def serve (table : Table α) : Request α → Except Error (Reply α) × Table α
  | push cell => Prod.map (Except.map .placed) id ((pushInPlace cell).outcome table)
  | set place cell =>
    Prod.map (Except.map fun _ => .stored) id ((setInPlace place cell).outcome table)
  | get place => Prod.map (Except.map .found) id ((getInPlace place).outcome table)

/-- What a list under a cap answers, and the list afterwards. -/
def serveList (cap : Option Nat) (cells : List α) :
    Request α → Except Error (Reply α) × List α
  | push cell =>
    if HasRoom cap cells.length then (.ok (.placed cells.length), cells ++ [cell])
    else (.error (.nodesExhausted cells.length), cells)
  | set place cell =>
    if place < cells.length then (.ok .stored, cells.set place cell)
    else (.error (.missingNode place), cells)
  | get place =>
    match cells[place]? with
    | some cell => (.ok (.found cell), cells)
    | none => (.error (.missingNode place), cells)

/-- The cell that a request stored at a place, going by the reply to it. -/
def stored? (request : Request α) (reply : Except Error (Reply α)) (place : Nat) : Option α :=
  match request, reply with
  | push cell, .ok (.placed fresh) => if place = fresh then some cell else none
  | set old cell, .ok _ => if place = old then some cell else none
  | _, _ => none

/-- What is answered to requests one after the other, and what is left in the end. -/
def serveAll {σ : Type} (serve : σ → Request α → Except Error (Reply α) × σ) :
    List (Request α) → σ → List (Except Error (Reply α)) × σ
  | [], state => ([], state)
  | request :: requests, state =>
    let (reply, next) := serve state request
    let (replies, final) := serveAll serve requests next
    (reply :: replies, final)

/-- The cell that requests stored last at a place, going by the replies to them. -/
def lastStored? (place : Nat) : List (Request α) → List (Except Error (Reply α)) → Option α
  | request :: requests, reply :: replies =>
    (lastStored? place requests replies).or (request.stored? reply place)
  | _, _ => none

/-- All that a request can do to a table. -/
inductive Step (table : Table α) : Request α → Except Error (Reply α) → Table α → Prop
  | pushed {cell next} : HasRoom table.cap table.size → table.push cell = .ok next →
      Step table (push cell) (.ok (.placed table.size)) next
  | full {cell} : ¬ HasRoom table.cap table.size →
      Step table (push cell) (.error (.nodesExhausted table.size)) table
  | changed {place cell} : place < table.size →
      Step table (set place cell) (.ok .stored) (table.set place cell)
  | found {place cell} : table.get? place = some cell →
      Step table (get place) (.ok (.found cell)) table
  | unset {place cell} : table.size ≤ place →
      Step table (set place cell) (.error (.missingNode place)) table
  | unfound {place} : table.size ≤ place →
      Step table (get place) (.error (.missingNode place)) table

/-- Whatever is asked, what is answered is one of these. -/
theorem step_of_serve (h : table.Sound) {request : Request α} {reply : Except Error (Reply α)}
    (hserve : request.serve table = (reply, next)) : Step table request reply next := by
  cases request with
  | push cell =>
    rw [serve, outcome_pushInPlace] at hserve
    by_cases hroom : HasRoom table.cap table.size
    · obtain ⟨grown, hpush⟩ := push_of_room (requireRoomUnder_eq_ok.mpr hroom) cell
      rw [hpush] at hserve
      obtain ⟨rfl, rfl⟩ := Prod.mk.inj hserve
      exact .pushed hroom hpush
    · rw [Table.push, requireRoomUnder_eq, if_neg hroom] at hserve
      obtain ⟨rfl, rfl⟩ := Prod.mk.inj hserve
      exact .full hroom
  | set place cell =>
    rw [serve, outcome_setInPlace] at hserve
    cases hget : table.get? place <;> rw [hget] at hserve <;>
      obtain ⟨rfl, rfl⟩ := Prod.mk.inj hserve
    · exact .unset (h.get?_eq_none_iff.mp hget)
    · refine .changed (Nat.lt_of_not_le fun hbeyond => ?_)
      exact Option.some_ne_none _ (hget.symm.trans (h.get?_eq_none_iff.mpr hbeyond))
  | get place =>
    rw [serve, outcome_getInPlace] at hserve
    cases hget : table.get? place <;> rw [hget] at hserve <;>
      obtain ⟨rfl, rfl⟩ := Prod.mk.inj hserve
    · exact .unfound (h.get?_eq_none_iff.mp hget)
    · exact .found hget

namespace Step

variable {request : Request α} {reply : Except Error (Reply α)}

/-- A step of the table in place keeps it sound. -/
theorem sound (h : Step table request reply next) (hsound : table.Sound) : next.Sound := by
  cases h with
  | pushed _ hpush => exact hsound.push hpush
  | changed => exact hsound.set _ _
  | full | found | unset | unfound => exact hsound

/-- The cap and the length of chunks stay. -/
theorem frame (h : Step table request reply next) :
    next.cap = table.cap ∧ next.chunkLength = table.chunkLength := by
  cases h with
  | pushed _ hpush =>
    obtain ⟨-, rfl⟩ := push_eq_ok hpush
    exact ⟨rfl, rfl⟩
  | changed | full | found | unset | unfound => exact ⟨rfl, rfl⟩

/-- The list that a table stands for answers alike and is what the table stands for afterwards. -/
theorem serveList_eq (h : Step table request reply next) (hsound : table.Sound) :
    request.serveList table.cap table.toList = (reply, next.toList) := by
  have hlength := hsound.length_toList
  cases h with
  | pushed hroom hpush =>
    rw [serveList, hlength, if_pos hroom, hsound.toList_push hpush]
  | full hroom => rw [serveList, hlength, if_neg hroom]
  | changed hplace => rw [serveList, hlength, if_pos hplace, hsound.toList_set hplace]
  | found hget => rw [serveList, hsound.getElem?_toList, hget]
  | unset hplace => rw [serveList, hlength, if_neg (Nat.not_lt.mpr hplace)]
  | unfound hplace =>
    rw [serveList, hsound.getElem?_toList, hsound.get?_eq_none_iff.mpr hplace]

/-- A place has what the request stored there, or else what it had. -/
theorem get?_eq (h : Step table request reply next) (hsound : table.Sound) (place : Nat) :
    next.get? place = (request.stored? reply place).or (table.get? place) := by
  cases h with
  | pushed _ hpush =>
    rw [hsound.get?_push hpush, stored?]
    split <;> rfl
  | changed hold =>
    rw [hsound.get?_set hold, stored?]
    split <;> rfl
  | full | found | unset | unfound => rfl

/-- The next place is handed out, and counted, or none is. -/
theorem place_cases (h : Step table request reply next) :
    (Reply.place? reply = some table.size ∧ next.size = table.size + 1 ∧
      table.size < maxWord32) ∨
    Reply.place? reply = none ∧ next.size = table.size := by
  cases h with
  | pushed hroom hpush => exact .inl ⟨rfl, (size_push hpush).1, hroom.1⟩
  | changed | full | found | unset | unfound => exact .inr ⟨rfl, rfl⟩

end Step

/-- What some requests do to a table in the end. -/
structure Run (table : Table α) (requests : List (Request α))
    (replies : List (Except Error (Reply α))) (final : Table α) : Prop where
  sound : final.Sound
  frame : final.cap = table.cap ∧ final.chunkLength = table.chunkLength
  list_eq : serveAll (serveList table.cap) requests table.toList = (replies, final.toList)
  get?_eq : ∀ place, final.get? place = (lastStored? place requests replies).or (table.get? place)
  places_eq : List.range table.size ++ replies.filterMap Reply.place? = List.range final.size
  size_le : table.size ≤ maxWord32 → final.size ≤ maxWord32

/-- What all requests do is put together from what each does. -/
theorem run_of_serveAll (h : table.Sound) {requests : List (Request α)}
    {replies : List (Except Error (Reply α))} {final : Table α}
    (hserved : serveAll serve requests table = (replies, final)) :
    Run table requests replies final := by
  induction requests generalizing table replies with
  | nil =>
    obtain ⟨rfl, rfl⟩ := Prod.mk.inj hserved
    exact ⟨h, ⟨rfl, rfl⟩, rfl, fun _ => rfl, List.append_nil _, id⟩
  | cons request requests ih =>
    rcases hserve : serve table request with ⟨reply, next⟩
    rcases hrest : serveAll serve requests next with ⟨rest, last⟩
    simp only [serveAll, hserve, hrest] at hserved
    obtain ⟨rfl, rfl⟩ := Prod.mk.inj hserved
    have hstep := step_of_serve h hserve
    have hrun := ih (hstep.sound h) hrest
    obtain ⟨hcap, hlength⟩ := hstep.frame
    constructor
    case sound => exact hrun.sound
    case frame => exact ⟨hrun.frame.1.trans hcap, hrun.frame.2.trans hlength⟩
    case list_eq =>
      have hlist := hrun.list_eq
      rw [hcap] at hlist
      simp only [serveAll, hstep.serveList_eq h, hlist]
    case get?_eq =>
      intro place
      rw [hrun.get?_eq, hstep.get?_eq h, lastStored?, Option.or_assoc]
    case places_eq =>
      have hplaces := hrun.places_eq
      rcases hstep.place_cases with ⟨hplace, hsize, -⟩ | ⟨hplace, hsize⟩
      · rw [hsize, List.range_succ, List.append_assoc] at hplaces
        rw [List.filterMap_cons_some hplace, ← hplaces]
        rfl
      · rw [hsize] at hplaces
        rw [List.filterMap_cons_none hplace, ← hplaces]
    case size_le =>
      intro hword
      apply hrun.size_le
      rcases hstep.place_cases with ⟨-, hsize, hlt⟩ | ⟨-, hsize⟩ <;> omega

end Request

/-- Whatever is asked of a table, it answers as a list under the same cap does, and stands for that
list afterwards. The places that it hands out are 0, 1, 2, … in order, all of them words, and each
has what was stored there last and lies in a chunk. One more cell gets the next place if there is
room, and otherwise it is refused and nothing changes; a place in use can be read, and what is
stored there changes no other. -/
theorem serves_as_list {chunkLength : Nat} (hpos : 0 < chunkLength) (cap : Option Nat)
    {requests : List (Request α)} {replies : List (Except Error (Reply α))}
    (hserved : Request.serveAll Request.serve requests (empty chunkLength cap) =
      (replies, table)) :
    Request.serveAll (Request.serveList cap) requests [] = (replies, table.toList) ∧
    replies.filterMap Reply.place? = List.range table.size ∧ table.size ≤ maxWord32 ∧
    (∀ place, table.get? place = Request.lastStored? place requests replies) ∧
    (∀ place < table.size, ∃ chunk, table.chunks[place / chunkLength]? = some chunk ∧
      place % chunkLength < chunk.size) ∧
    (∀ cell,
      (HasRoom cap table.size ∧ ∃ next,
        (Request.push cell).serve table = (.ok (.placed table.size), next) ∧
        ∀ place, next.get? place = if place = table.size then some cell else table.get? place) ∨
      ¬ HasRoom cap table.size ∧
        (Request.push cell).serve table = (.error (.nodesExhausted table.size), table)) ∧
    ∀ place < table.size,
      (∃ cell, table.get? place = some cell ∧
        (Request.get place).serve table = (.ok (.found cell), table)) ∧
      ∀ cell, ∃ next, (Request.set place cell).serve table = (.ok .stored, next) ∧
        next.size = table.size ∧
        ∀ other, next.get? other = if other = place then some cell else table.get? other := by
  have hrun := Request.run_of_serveAll (sound_empty hpos cap) hserved
  have hsound := hrun.sound
  obtain ⟨hcap, hlength⟩ : table.cap = cap ∧ table.chunkLength = chunkLength := hrun.frame
  refine ⟨hrun.list_eq, hrun.places_eq, hrun.size_le (Nat.zero_le _), ?_, ?_, ?_, ?_⟩
  · intro place
    rw [hrun.get?_eq]
    exact Option.or_none
  · rw [← hlength]
    exact fun place hplace => hsound.get?_isSome hplace
  · intro cell
    rcases hserve : (Request.push cell).serve table with ⟨reply, next⟩
    cases Request.step_of_serve hsound hserve with
    | pushed hroom hpush => exact .inl ⟨hcap ▸ hroom, next, rfl, hsound.get?_push hpush⟩
    | full hroom => exact .inr ⟨hcap ▸ hroom, rfl⟩
  · intro place hplace
    constructor
    · rcases hserve : (Request.get place).serve table with ⟨reply, next⟩
      cases Request.step_of_serve hsound hserve with
      | found hget => exact ⟨_, hget, rfl⟩
      | unfound hbeyond => exact absurd hplace (Nat.not_lt.mpr hbeyond)
    · intro cell
      rcases hserve : (Request.set place cell).serve table with ⟨reply, next⟩
      cases Request.step_of_serve hsound hserve with
      | changed _ => exact ⟨_, rfl, rfl, hsound.get?_set hplace cell⟩
      | unset hbeyond => exact absurd hplace (Nat.not_lt.mpr hbeyond)

/-- Cells are stored in chunks of two until there are three. -/
def threeRequests : List (Request Nat) :=
  [.push 10, .push 11, .set 0 12, .push 13, .push 14, .set 3 15, .get 0]

/-- The fourth cell is refused, and nothing can be stored at its place. The first one was changed
before. -/
theorem serves_as_list_three : 0 < 2 ∧ ∃ replies table,
    Request.serveAll Request.serve threeRequests (empty 2 (some 3)) = (replies, table) ∧
      replies = [.ok (.placed 0), .ok (.placed 1), .ok .stored, .ok (.placed 2),
        .error (.nodesExhausted 3), .error (.missingNode 3), .ok (.found 12)] ∧
      table.toList = [12, 11, 13] ∧ table.get? 0 = some 12 ∧
      replies.filterMap Reply.place? = List.range table.size := by
  have hserved : Request.serveAll Request.serve threeRequests (empty 2 (some 3)) = (_, _) := rfl
  obtain ⟨hlist, hplaces, -, hlast, -⟩ := serves_as_list Nat.two_pos (some 3) hserved
  obtain ⟨hreplies, hcells⟩ := Prod.mk.inj hlist
  exact ⟨Nat.two_pos, _, _, hserved, hreplies.symm, hcells.symm, hlast 0, hplaces⟩

end Table

end Proximity
