import Mathlib
import Proximity.Proofs.Bytes.Reading
import Proximity.Tree.Stepwise

/-!
# Where reading ends

A reader that accepts a stream takes some bytes from its front. It knows from these bytes alone
where they end: whatever follows them is left and changes nothing, and a stream that delivers only
some of them fails in the way that it ends. Readers made of such readers are such readers, whatever
they check in between.
-/

namespace Proximity.Reader

variable {α β : Type}

/-- Whether a reader takes exactly some bytes and gives a value for them. -/
structure Takes (reader : Reader α) (bytes : List UInt8) (value : α) : Prop where
  /-- Whatever follows the bytes is left. -/
  whole : ∀ rest ending, reader ⟨bytes ++ rest, ending⟩ = .ok (value, ⟨rest, ending⟩)
  /-- A stream that delivers fewer of them fails in the way that it ends. -/
  short : ∀ count < bytes.length, ∀ ending,
    reader ⟨bytes.take count, ending⟩ = .error ending.error

/-- Whether a reader takes exactly some bytes from the front of every stream that it accepts. -/
def Delimited (reader : Reader α) : Prop :=
  ∀ stream value rest, reader stream = .ok (value, rest) →
    ∃ bytes, stream = ⟨bytes ++ rest.bytes, rest.ending⟩ ∧ reader.Takes bytes value

theorem bind_eq_error {reader : Reader α} {next : α → Reader β} {stream : Stream} {e : Error}
    (h : reader stream = .error e) : (reader >>= next) stream = .error e := by
  show reader stream >>= (fun step => next step.1 step.2) = _
  rw [h]
  rfl

namespace Takes

variable {reader : Reader α} {next : α → Reader β} {bytes more : List UInt8} {a : α} {b : β}

/-- A reader of a constant takes no bytes. -/
theorem pure (a : α) : (Pure.pure a : Reader α).Takes [] a :=
  ⟨fun _ _ => rfl, fun _ hcount => absurd hcount (Nat.not_lt_zero _)⟩

/-- The bytes of two readers stand one after the other. -/
theorem bind (h : reader.Takes bytes a) (hnext : (next a).Takes more b) :
    (reader >>= next).Takes (bytes ++ more) b := by
  constructor
  case whole =>
    intro rest ending
    rw [List.append_assoc, bind_eq (h.whole _ _), hnext.whole]
  case short =>
    intro count hcount ending
    rw [List.length_append] at hcount
    rw [List.take_append]
    -- The stream is over among the bytes of the first reader or among those of the second.
    rcases Nat.lt_or_ge count bytes.length with hlt | hge
    · rw [Nat.sub_eq_zero_of_le hlt.le, List.take_zero, List.append_nil]
      exact bind_eq_error (h.short count hlt ending)
    · rw [List.take_of_length_le hge, bind_eq (h.whole _ _), hnext.short _ (by omega)]

end Takes

/-- What reads nothing ends where it began, on every stream. -/
theorem delimited_pure (a : α) : (pure a : Reader α).Delimited := by
  intro stream value rest h
  cases pure_eq_ok.mp h
  exact ⟨[], rfl, .pure a⟩

theorem delimited_throw (e : Error) : (throw e : Reader α).Delimited :=
  fun _ _ _ h => nomatch h

/-- What was read decides only how reading goes on. -/
theorem Delimited.bind {reader : Reader α} {next : α → Reader β} (h : reader.Delimited)
    (hnext : ∀ a, (next a).Delimited) : (reader >>= next).Delimited := by
  intro stream value rest hread
  obtain ⟨a, after, hfirst, hsecond⟩ := bind_eq_ok.mp hread
  obtain ⟨bytes, rfl, htakes⟩ := h stream a after hfirst
  obtain ⟨more, hafter, hmore⟩ := hnext a after value rest hsecond
  refine ⟨bytes ++ more, ?_, htakes.bind hmore⟩
  rw [hafter, List.append_assoc]

/-- What is made of the result does not matter to how far a reader reads. -/
theorem Delimited.map {reader : Reader α} (h : reader.Delimited) (f : α → β) :
    (f <$> reader).Delimited :=
  h.bind fun a => delimited_pure (f a)

theorem delimited_lift (run : Except Error α) : (liftM run : Reader α).Delimited := by
  cases run with
  | ok a => exact delimited_pure a
  | error e => exact delimited_throw e

/-- A check in between takes nothing from the stream. -/
theorem Delimited.guard {c : Prop} [Decidable c] {e : Error} {next : Reader α}
    (h : next.Delimited) :
    (if c then (throw e : Reader PUnit) >>= fun _ => next else next).Delimited := by
  split
  · exact (delimited_throw e).bind fun _ => h
  · exact h

/-- Bytes taken by their count are the same before any continuation. -/
theorem delimited_take (count : Nat) : (take count).Delimited := by
  intro stream bytes rest h
  obtain ⟨rfl, hlength⟩ := eq_append_of_take h
  refine ⟨bytes, rfl, fun rest ending => take_append hlength, ?_⟩
  intro fewer hfewer ending
  rw [take, List.splitAt_eq]
  dsimp only
  rw [if_neg]
  simp only [List.length_take]
  omega

theorem delimited_word (width : Nat) : (word width).Delimited := (delimited_take width).map _

/-- The first item is read on its own and the others after it. -/
theorem many_succ (item : Reader α) (count : Nat) (read : Array α) :
    many item (count + 1) read = item >>= fun value => many item count (read.push value) := by
  funext stream
  show _ = item stream >>= fun step => many item count (read.push step.1) step.2
  rw [many]
  cases item stream <;> rfl

/-- Items read one after another are as delimited as each one. -/
theorem Delimited.many {item : Reader α} (h : item.Delimited) (count : Nat) (read : Array α) :
    (many item count read).Delimited := by
  induction count generalizing read with
  | zero => exact delimited_pure read
  | succ count ih =>
    rw [many_succ]
    exact h.bind fun value => ih (read.push value)

/-- Words read in chunks are delimited, however the chunks fall. -/
theorem delimited_words (width chunks count : Nat) (read : Array Nat) :
    (words width chunks count read).Delimited := by
  induction chunks generalizing count read with
  | zero => exact delimited_pure read
  | succ chunks ih => exact (delimited_take _).bind fun bytes => ih _ _

/-- A loop is as delimited as its step. -/
theorem Delimited.steps {σ : Type} {step : σ → Reader σ} (h : ∀ state, (step state).Delimited)
    (count : Nat) (state : σ) : (steps step count state).Delimited := by
  induction count generalizing state with
  | zero => exact delimited_pure state
  | succ count ih => exact (h state).bind ih

section Coordinates

variable (N : Type) [Storable N]

theorem delimited_coordinate : (coordinate N).Delimited := (delimited_take _).map _

/-- A side is two coordinates of fixed width. -/
theorem delimited_side : (side N).Delimited :=
  (delimited_coordinate N).bind fun _ => (delimited_coordinate N).bind fun _ => delimited_pure _

end Coordinates

/-- How a reader fares on streams that deliver some bytes, or some of them, if it gives a value
for the first `taken`. -/
structure Fares (reader : Reader α) (bytes : List UInt8) (taken : Nat) (value : α) : Prop where
  le_length : taken ≤ bytes.length
  /-- Anything else may follow the bytes taken. -/
  followed : ∀ more ending,
    reader ⟨bytes.take taken ++ more, ending⟩ = .ok (value, ⟨more, ending⟩)
  /-- A stream that is over before that is incomplete. -/
  closed : ∀ count < taken, reader (.ofBytes (bytes.take count)) = .error .incomplete
  /-- A stream that breaks before that could not be read. -/
  broken : ∀ count < taken, reader (.breakingAfter bytes count) = .error .readFailed
  /-- A stream that breaks after that could, and as much is taken of it. -/
  unbroken : ∀ count, taken ≤ count → ∃ rest,
    reader (.breakingAfter bytes count) = .ok (value, rest) ∧
      rest.bytes = (bytes.take count).drop taken

/-- A delimited reader takes what is missing from the rest of the stream. -/
theorem Delimited.fares {reader : Reader α} (h : reader.Delimited) {bytes : List UInt8}
    {taken : Nat} {value : α} {rest : Stream}
    (haccepts : reader (.ofBytes bytes) = .ok (value, rest))
    (htaken : taken + rest.bytes.length = bytes.length) :
    rest = .ofBytes (bytes.drop taken) ∧ reader.Fares bytes taken value := by
  obtain ⟨front, hstream, htakes⟩ := h _ value rest haccepts
  obtain ⟨rest, ending⟩ := rest
  obtain ⟨rfl, rfl⟩ := Stream.mk.inj hstream
  obtain rfl : taken = front.length := by
    rw [List.length_append] at htaken
    omega
  have hbreaks {count : Nat} (hcount : count ≤ (front ++ rest).length) :
      Stream.breakingAfter (front ++ rest) count = ⟨(front ++ rest).take count, .broken⟩ :=
    if_pos hcount
  have hshort {count : Nat} (hcount : count < front.length) :
      (front ++ rest).take count = front.take count :=
    List.take_append_of_le_length hcount.le
  rw [List.drop_left]
  refine ⟨rfl, ?_⟩
  constructor
  case le_length => simp
  case followed =>
    intro more ending
    rw [List.take_left]
    exact htakes.whole more ending
  case closed =>
    intro count hcount
    rw [hshort hcount]
    exact htakes.short count hcount .closed
  case broken =>
    intro count hcount
    rw [hbreaks (by rw [List.length_append]; omega), hshort hcount]
    exact htakes.short count hcount .broken
  case unbroken =>
    intro count hcount
    rcases Nat.lt_or_ge (front ++ rest).length count with hlt | hge
    · rw [Stream.breakingAfter, if_neg (Nat.not_le.mpr hlt), List.take_of_length_le hlt.le,
        List.drop_left]
      exact ⟨_, haccepts, rfl⟩
    · rw [hbreaks hge, List.take_append, List.take_of_length_le hcount, List.drop_left]
      exact ⟨_, htakes.whole _ _, rfl⟩

end Proximity.Reader
