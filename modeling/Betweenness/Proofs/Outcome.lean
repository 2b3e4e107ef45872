import Betweenness.Error
import Betweenness.Proofs.Numbering

/-!
# The first complaint

Requests are answered after checks in a fixed order: the first one that finds something to complain
about decides the error. A `Complaint` says what may be found by one check and which error reports
it. `Answers P x complaints` says of an answer `x` that it is the first of these complaints that
there is and, if there is none, a value with the property `P`.

Every function that refuses something has one such statement, and those of the functions that call
it are put together from it (`Answers.follow`): the complaints of two computations in turn are those
of the first, followed by those of the second.

## Main results

* `Answers.follow`, `Answers.bind`: the complaints of computations in turn.
* `Answers.exists_ok`, `Answers.eq_error`, `Answers.ne_error`, `Answers.exists_complaint`: when
  there is a value, which error there is, and errors that are never the answer.
-/

namespace Betweenness

theorem ok_bind {ε α β : Type} (a : α) (f : α → Except ε β) : (Except.ok a >>= f) = f a := rfl

theorem error_bind {ε α β : Type} (e : ε) (f : α → Except ε β) :
    (Except.error e >>= f) = .error e := rfl

/-- Two computations in turn fail when the first does, or else when the second does on its value. -/
theorem bind_eq_error_iff {ε α β : Type} {x : Except ε α} {f : α → Except ε β} {e : ε} :
    (x >>= f) = .error e ↔ x = .error e ∨ ∃ a, x = .ok a ∧ f a = .error e := by
  cases x with
  | error e' => simp [error_bind]
  | ok a => simp [ok_bind]

/-- A function of a computation's value fails when the computation does. -/
theorem map_eq_error_iff {ε α β : Type} {x : Except ε α} {f : α → β} {e : ε} :
    (f <$> x) = .error e ↔ x = .error e := by
  cases x with
  | error e' => simp [Functor.map, Except.map]
  | ok a => simp [Functor.map, Except.map]

/-- A computation for each entry of a list fails at the first entry for which it does. -/
theorem mapM_eq_error {ε α β : Type} {f : α → Except ε β} {before after : List α} {a : α} {e : ε}
    (hbefore : ∀ x ∈ before, ∃ y, f x = .ok y) (ha : f a = .error e) :
    (before ++ a :: after).mapM f = .error e := by
  induction before with
  | nil => rw [List.nil_append, List.mapM_cons, ha, error_bind]
  | cons x before ih =>
      obtain ⟨y, hy⟩ := hbefore x List.mem_cons_self
      rw [List.cons_append, List.mapM_cons, hy, ok_bind,
        ih fun z hz => hbefore z (List.mem_cons_of_mem _ hz), error_bind]

/-- It fails for no other reason than one of its entries. -/
theorem exists_of_mapM_eq_error {ε α β : Type} {f : α → Except ε β} {l : List α} {e : ε}
    (h : l.mapM f = .error e) : ∃ a ∈ l, f a = .error e := by
  induction l with
  | nil => cases h
  | cons a l ih =>
      rw [List.mapM_cons] at h
      rcases bind_eq_error_iff.mp h with ha | ⟨b, -, h⟩
      · exact ⟨a, List.mem_cons_self, ha⟩
      · rcases bind_eq_error_iff.mp h with hl | ⟨m, -, h⟩
        · obtain ⟨x, hx, hfail⟩ := ih hl
          exact ⟨x, List.mem_cons_of_mem _ hx, hfail⟩
        · cases h

/-- What a check may complain about: the errors for which there is a reason. -/
abbrev Complaint := Error → Prop

/-- The complaint that there is under a condition, always the same one. -/
def Complaint.when (amiss : Prop) (error : Error) : Complaint := fun e => amiss ∧ e = error

/-- The answer `x` is the first of some complaints that there is and, if there is none, a value
with the property `P`. -/
def Answers {α : Type} (P : α → Prop) (x : Except Error α) : List Complaint → Prop
  | [] => ∃ a, x = .ok a ∧ P a
  | complaint :: complaints =>
      (∀ e, complaint e → x = .error e) ∧ ((∀ e, ¬ complaint e) → Answers P x complaints)

namespace Answers

variable {α β : Type} {P : α → Prop} {Q : β → Prop} {x : Except Error α} {y : Except Error β}
  {complaint : Complaint} {complaints later : List Complaint} {amiss : Prop} {e : Error}

/-! ### How answers come about -/

/-- A value is the answer if there is nothing to complain about. -/
theorem ok {a : α} (hx : x = .ok a) (h : P a) : Answers P x [] := ⟨a, hx, h⟩

/-- A check that passes leaves the answer to those that follow. -/
theorem pass (h : ∀ e, ¬ complaint e) (hx : Answers P x complaints) :
    Answers P x (complaint :: complaints) := ⟨fun e he => absurd he (h e), fun _ => hx⟩

/-- A check in front of something else. -/
theorem guard [Decidable amiss] (hx : ¬ amiss → Answers P x complaints) :
    Answers P (if amiss then .error e else x) (.when amiss e :: complaints) := by
  constructor
  · rintro - ⟨hamiss, rfl⟩
    exact if_pos hamiss
  · intro hnone
    have hfine : ¬ amiss := fun hamiss => hnone e ⟨hamiss, rfl⟩
    rw [if_neg hfine]
    exact hx hfine

/-- One check, which passes unless its condition is met. -/
theorem check [Decidable amiss] {P : Unit → Prop} (h : ¬ amiss → P ()) :
    Answers P (if amiss then .error e else .ok ()) [.when amiss e] :=
  guard fun hfine => .ok rfl (h hfine)

/-- A computation that fails where another one does complains about the same things first. -/
theorem follow (h : Answers P x complaints) (hfail : ∀ e, x = .error e → y = .error e)
    (hy : ∀ a, x = .ok a → P a → Answers Q y later) : Answers Q y (complaints ++ later) := by
  induction complaints with
  | nil =>
      obtain ⟨a, ha, hP⟩ := h
      exact hy a ha hP
  | cons complaint complaints ih =>
      exact ⟨fun e he => hfail e (h.1 e he), fun hnone => ih (h.2 hnone)⟩

/-- Two computations in turn complain about what the first does, then about what the second does. -/
theorem bind {f : α → Except Error β} (h : Answers P x complaints)
    (hf : ∀ a, P a → Answers Q (f a) later) : Answers Q (x >>= f) (complaints ++ later) := by
  refine h.follow (fun e he => ?_) fun a ha hP => ?_
  · rw [he, error_bind]
  · rw [ha, ok_bind]
    exact hf a hP

/-- A function of a value complains about nothing. -/
theorem map {f : α → β} (h : Answers P x complaints) (hf : ∀ a, P a → Q (f a)) :
    Answers Q (f <$> x) complaints := by
  rw [map_eq_pure_bind, ← List.append_nil complaints]
  exact h.bind fun a hP => .ok rfl (hf a hP)

/-! ### What can be read off an answer -/

/-- Without complaints there is a value. -/
theorem exists_ok (h : Answers P x complaints) (hnone : ∀ c ∈ complaints, ∀ e, ¬ c e) :
    ∃ a, x = .ok a ∧ P a := by
  induction complaints with
  | nil => exact h
  | cons complaint complaints ih =>
      exact ih (h.2 (hnone complaint List.mem_cons_self)) fun c hc =>
        hnone c (List.mem_cons_of_mem _ hc)

/-- The first complaint that there is decides the error. -/
theorem eq_error (complaints : List Complaint)
    (h : Answers P x (complaints ++ complaint :: later))
    (hnone : ∀ c ∈ complaints, ∀ e, ¬ c e) (he : complaint e) : x = .error e := by
  induction complaints with
  | nil => exact h.1 e he
  | cons c complaints ih =>
      exact ih (h.2 (hnone c List.mem_cons_self)) fun c' hc' =>
        hnone c' (List.mem_cons_of_mem _ hc')

/-- There is nothing to complain about where there is a value. -/
theorem not_complaint {a : α} (h : Answers P x (complaint :: complaints)) (hx : x = .ok a) :
    ¬ complaint e := by
  intro he
  rw [h.1 e he] at hx
  cases hx

/-- An error that nothing complains about is not the answer. -/
theorem ne_error (h : Answers P x complaints) (hnone : ∀ c ∈ complaints, ¬ c e) :
    x ≠ .error e := by
  induction complaints with
  | nil =>
      obtain ⟨a, rfl, -⟩ := h
      exact nofun
  | cons complaint complaints ih =>
      by_cases hfirst : ∃ e, complaint e
      · obtain ⟨e', he'⟩ := hfirst
        rw [h.1 e' he']
        rintro heq
        obtain rfl := Except.error.inj heq
        exact hnone complaint List.mem_cons_self he'
      · exact ih (h.2 fun e he => hfirst ⟨e, he⟩)
          fun c hc => hnone c (List.mem_cons_of_mem _ hc)

/-- An error is the answer because something complains about it. -/
theorem exists_complaint (h : Answers P x complaints) (hx : x = .error e) :
    ∃ c ∈ complaints, c e := by
  by_contra hnone
  exact h.ne_error (fun c hc he => hnone ⟨c, hc, he⟩) hx

end Answers

end Betweenness
