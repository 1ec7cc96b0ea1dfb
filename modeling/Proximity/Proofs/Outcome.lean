import Mathlib
import Proximity.Error

/-!
# Runs that succeed

A run that may fail is opened step by step: it succeeds exactly when its first step does and the
rest succeeds on what that gave. Runs over a list succeed item by item.
-/

namespace Proximity.Outcome

variable {α β γ : Type}

/-- Two computations in a row succeed exactly if the second one does on the result of the first one.
-/
theorem bind_eq_ok {x : Except Error α} {f : α → Except Error β} {b : β} :
    x >>= f = .ok b ↔ ∃ a, x = .ok a ∧ f a = .ok b := by
  cases x with
  | error e => exact ⟨fun h => (nomatch h), fun ⟨_, h, _⟩ => (nomatch h)⟩
  | ok a => exact ⟨fun h => ⟨a, rfl, h⟩, fun ⟨_, rfl, h⟩ => h⟩

@[simp] theorem ok_bind (a : α) (f : α → Except Error β) : Except.ok a >>= f = f a := rfl

@[simp] theorem error_bind (e : Error) (f : α → Except Error β) :
    Except.error e >>= f = .error e := rfl

@[simp] theorem pure_eq_ok (a : α) : (pure a : Except Error α) = .ok a := rfl

@[simp] theorem throw_eq_error (e : Error) : (throw e : Except Error α) = .error e := rfl

/-- A run that is refused under a condition goes on only if it does not hold. -/
theorem guard_eq_ok {c : Prop} [Decidable c] {e : Error} {next : Except Error α} {a : α} :
    (if c then (throw e : Except Error PUnit) >>= fun _ => next else next) = .ok a ↔
      ¬ c ∧ next = .ok a := by
  by_cases h : c
  · rw [if_pos h]
    exact ⟨fun hthrow => (nomatch hthrow), fun hboth => absurd h hboth.1⟩
  · rw [if_neg h]
    exact ⟨fun hnext => ⟨h, hnext⟩, And.right⟩

/-- A run fails exactly if its first step does, or else the rest on what that gave. -/
theorem bind_eq_error {x : Except Error α} {f : α → Except Error β} {e : Error} :
    x >>= f = .error e ↔ x = .error e ∨ ∃ a, x = .ok a ∧ f a = .error e := by
  cases x with
  | error cause =>
    rw [error_bind, Except.error.injEq, Except.error.injEq]
    exact ⟨.inl, fun h => h.elim id fun ⟨_, hok, _⟩ => (nomatch hok)⟩
  | ok a =>
    rw [ok_bind]
    exact ⟨fun h => .inr ⟨a, rfl, h⟩,
      fun h => h.elim (fun herror => (nomatch herror)) fun ⟨_, hok, hnext⟩ =>
        Except.ok.inj hok ▸ hnext⟩

/-- A run that is refused under a condition fails if it holds, or else where the rest does. -/
theorem guard_eq_error {c : Prop} [Decidable c] {e cause : Error} {next : Except Error α} :
    (if c then (throw e : Except Error PUnit) >>= fun _ => next else next) = .error cause ↔
      (c ∧ e = cause) ∨ ¬ c ∧ next = .error cause := by
  by_cases h : c
  · rw [if_pos h]
    exact ⟨fun hthrow => .inl ⟨h, Except.error.inj hthrow⟩,
      fun hboth => hboth.elim (fun hfirst => congrArg _ hfirst.2) fun hrest => absurd h hrest.1⟩
  · rw [if_neg h]
    exact ⟨fun hnext => .inr ⟨h, hnext⟩,
      fun hboth => hboth.elim (fun hfirst => absurd hfirst.1 h) And.right⟩

/-- A run over a list gives one result for each item. -/
theorem mapM_eq_ok {f : α → Except Error β} {items : List α} {results : List β} :
    items.mapM f = .ok results ↔ List.Forall₂ (fun item result => f item = .ok result)
      items results := by
  induction items generalizing results with
  | nil =>
    rw [List.mapM_nil, List.forall₂_nil_left_iff]
    exact ⟨fun h => (Except.ok.inj h).symm, fun h => h ▸ rfl⟩
  | cons item items ih =>
    rw [List.mapM_cons, bind_eq_ok, List.forall₂_cons_left_iff]
    constructor
    · rintro ⟨first, hfirst, h⟩
      obtain ⟨rest, hrest, h⟩ := bind_eq_ok.mp h
      exact ⟨first, rest, hfirst, ih.mp hrest, (Except.ok.inj h).symm⟩
    · rintro ⟨first, rest, hfirst, hrest, rfl⟩
      exact ⟨first, hfirst, bind_eq_ok.mpr ⟨rest, ih.mpr hrest, rfl⟩⟩

/-- A run that takes a state along reads all items and then goes through what was read. -/
theorem foldlM_eq_ok {read : α → Except Error β} {step : γ → β → γ} {items : List α}
    {start final : γ} :
    items.foldlM (fun state item => return step state (← read item)) start = .ok final ↔
      ∃ results, List.Forall₂ (fun item result => read item = .ok result) items results ∧
        final = results.foldl step start := by
  induction items generalizing start with
  | nil =>
    simp only [List.foldlM_nil, pure_eq_ok, List.forall₂_nil_left_iff, exists_eq_left,
      List.foldl_nil, Except.ok.injEq]
    exact eq_comm
  | cons item items ih =>
    rw [List.foldlM_cons, bind_eq_ok]
    constructor
    · rintro ⟨next, hnext, h⟩
      obtain ⟨first, hfirst, hnext⟩ := bind_eq_ok.mp hnext
      obtain rfl := Except.ok.inj hnext
      obtain ⟨rest, hrest, rfl⟩ := ih.mp h
      exact ⟨first :: rest, .cons hfirst hrest, rfl⟩
    · rintro ⟨results, hread, rfl⟩
      obtain ⟨first, rest, hfirst, hrest, rfl⟩ := List.forall₂_cons_left_iff.mp hread
      exact ⟨step start first, bind_eq_ok.mpr ⟨first, hfirst, rfl⟩, ih.mpr ⟨rest, hrest, rfl⟩⟩

/-- If every item has a result, a list of items has a list of results. -/
theorem exists_forall₂ {R : α → β → Prop} {items : List α} (h : ∀ item ∈ items, ∃ b, R item b) :
    ∃ results, List.Forall₂ R items results := by
  induction items with
  | nil => exact ⟨[], .nil⟩
  | cons item items ih =>
    obtain ⟨⟨first, hfirst⟩, hrest⟩ := List.forall_mem_cons.mp h
    obtain ⟨rest, hall⟩ := ih hrest
    exact ⟨first :: rest, .cons hfirst hall⟩

/-- Whether two runs both succeed, with results in a relation, or both fail with one error. -/
inductive Both (R : α → β → Prop) : Except Error α → Except Error β → Prop
  | ok {a b} : R a b → Both R (.ok a) (.ok b)
  | error (e) : Both R (.error e) (.error e)

namespace Both

variable {δ : Type} {R : α → β → Prop} {x : Except Error α} {y : Except Error β}

/-- Results that are related in one way are related in every weaker one. -/
theorem imp {S : α → β → Prop} (h : Both R x y)
    (himp : ∀ a b, x = .ok a → y = .ok b → R a b → S a b) : Both S x y := by
  cases h with
  | ok hab => exact .ok (himp _ _ rfl rfl hab)
  | error e => exact .error e

/-- Results that are there are related. -/
theorem of_eq_ok {a : α} {b : β} (h : Both R x y) (hx : x = .ok a) (hy : y = .ok b) : R a b := by
  subst hx hy
  cases h with
  | ok hab => exact hab

/-- Runs beside each other that fail do so with one error. -/
theorem eq_of_error {x y : Except Error α} {R : α → α → Prop} (h : Both R x y) {e : Error}
    (he : x = .error e ∨ y = .error e) : y = x := by
  cases h with
  | ok hab => exact he.elim nofun nofun
  | error e => rfl

/-- Runs beside each other go on beside each other. -/
theorem bind {S : γ → δ → Prop} {f : α → Except Error γ} {g : β → Except Error δ} (h : Both R x y)
    (hnext : ∀ a b, x = .ok a → y = .ok b → R a b → Both S (f a) (g b)) :
    Both S (x >>= f) (y >>= g) := by
  cases h with
  | ok hab => exact hnext _ _ rfl rfl hab
  | error e => exact .error e

/-- One step taken twice. -/
theorem bind_same {S : γ → δ → Prop} {f : α → Except Error γ} {g : α → Except Error δ}
    (x : Except Error α) (hnext : ∀ a, Both S (f a) (g a)) : Both S (x >>= f) (x >>= g) := by
  cases x with
  | ok a => exact hnext a
  | error e => exact .error e

/-- Runs that are refused under one condition, or else go on beside each other. -/
theorem guard {c : Prop} [Decidable c] {e : Error} (h : ¬ c → Both R x y) :
    Both R (if c then (throw e : Except Error PUnit) >>= fun _ => x else x)
      (if c then (throw e : Except Error PUnit) >>= fun _ => y else y) := by
  by_cases hc : c
  · rw [if_pos hc, if_pos hc]
    exact .error e
  · rw [if_neg hc, if_neg hc]
    exact h hc

end Both

end Proximity.Outcome
