import Betweenness.Workload
import Mathlib.Data.List.Induction
import Mathlib.Data.Nat.Notation

/-!
# Draws that always have an outcome

A draw below zero has no outcome, and neither has a look-up at a place that is not there, a division
by zero or a difference below zero. So a computation that draws numbers may fail, depending on the
words that it is given. `Always P c` says that `c` does not fail, whatever state the supply of words
is in, and that every outcome has the property `P`. Its lemmas follow a computation step by step;
for a loop they ask for what every round of it keeps. As the supply is arbitrary, so are the words.

## Main results

* `Always.bind`, `Always.foldlM`: computations in turn, and the run lemma for loops.
* `always_below`, `always_pick`: draws of numbers and entries.
-/

namespace Betweenness.Chance

/-- Two computations in turn. -/
theorem bind_apply {σ α β : Type} (c : Chance σ α) (f : α → Chance σ β) (s : σ) :
    (c >>= f) s = (c s).bind fun x => f x.1 x.2 := rfl

/-- A computation has an outcome from every state, and every outcome has a property. -/
def Always {σ α : Type} (P : α → Prop) (c : Chance σ α) : Prop :=
  ∀ s, ∃ x s', c s = some (x, s') ∧ P x

namespace Always

variable {σ α β : Type} {P Q : α → Prop} {c : Chance σ α}

theorem mono (h : Always P c) (hPQ : ∀ x, P x → Q x) : Always Q c := by
  intro s
  obtain ⟨x, s', hx, hP⟩ := h s
  exact ⟨x, s', hx, hPQ x hP⟩

theorem pure {x : α} (h : P x) : Always P (Pure.pure x : Chance σ α) := fun s => ⟨x, s, rfl, h⟩

theorem bind {R : β → Prop} {f : α → Chance σ β} (h : Always P c) (hf : ∀ x, P x → Always R (f x)) :
    Always R (c >>= f) := by
  intro s
  obtain ⟨x, s', hx, hP⟩ := h s
  obtain ⟨y, s'', hy, hR⟩ := hf x hP s'
  exact ⟨y, s'', Option.bind_eq_some_iff.mpr ⟨(x, s'), hx, hy⟩, hR⟩

/-- What two observations say of the outcomes is said of one and the same outcome. -/
theorem and (hP : Always P c) (hQ : Always Q c) : Always (fun x => P x ∧ Q x) c := by
  intro s
  obtain ⟨x, s', hx, hPx⟩ := hP s
  obtain ⟨y, s'', hy, hQy⟩ := hQ s
  obtain ⟨rfl, -⟩ := Prod.mk.inj (Option.some.inj (hx.symm.trans hy))
  exact ⟨x, s', hx, hPx, hQy⟩

/-- **Run lemma**: what holds before a loop of draws, and is passed on from each round to the next,
holds after its last one, which there always is. -/
theorem foldlM {I : ℕ → β → Prop} {f : β → α → Chance σ β} {y : β} {l : List α} (hy : I 0 y)
    (hstep : ∀ i a y, l[i]? = some a → I i y → Always (I (i + 1)) (f y a)) :
    Always (I l.length) (l.foldlM f y) := by
  induction l using List.reverseRecOn with
  | nil => exact .pure hy
  | append_singleton l a ih =>
      rw [List.foldlM_append, List.length_append, List.length_singleton]
      refine (ih fun i a y hi => hstep i a y ?_).bind fun y hy => ?_
      · rw [List.getElem?_append_left (List.getElem?_eq_some_iff.mp hi).1, hi]
      · rw [List.foldlM_cons]
        exact (hstep l.length a y List.getElem?_concat_length hy).bind fun z hz => .pure hz

/-- A computation has an outcome from a seed. -/
theorem exists_outcome {c : Chance Congruential α} (h : Always P c) (seed : UInt64) :
    ∃ x, c.outcome seed = some x ∧ P x := by
  obtain ⟨x, g, hx, hP⟩ := h ⟨seed⟩
  exact ⟨x, congrArg (Option.map Prod.fst) hx, hP⟩

end Always

section Draws

variable {σ : Type}

/-- There is a difference of a number and one that is not greater. -/
theorem always_difference {a b : ℕ} (h : b ≤ a) :
    Always (· = a - b) (difference a b : Chance σ ℕ) := by
  rw [difference, if_pos h]
  exact .pure rfl

/-- There is a remainder of a division if it is not by zero. -/
theorem always_remainder {a b : ℕ} (h : 0 < b) :
    Always (· = a % b) (remainder a b : Chance σ ℕ) := by
  rw [remainder, if_neg (Nat.ne_of_gt h)]
  exact .pure rfl

variable [WordSupply σ]

/-- A number below a bound is a remainder of the high bits of the next word. -/
theorem below_apply {bound : ℕ} (h : 0 < bound) (s : σ) : (below bound : Chance σ ℕ) s =
    some (((WordSupply.next s).1 >>> 33).toNat % bound, (WordSupply.next s).2) := by
  simp only [below, numberBelow?, if_neg (Nat.ne_of_gt h)]

/-- There is a number below a bound if the bound is not zero. -/
theorem always_below {bound : ℕ} (h : 0 < bound) :
    Always (· < bound) (below bound : Chance σ ℕ) := fun s =>
  ⟨_, _, below_apply h s, Nat.mod_lt _ h⟩

theorem always_fraction : Always (fun _ => True) (fraction : Chance σ Float) :=
  fun _ => ⟨_, _, rfl, trivial⟩

/-- There is an entry of an array if it is not empty. -/
theorem always_pick {entries : Array ℕ} (h : 0 < entries.size) :
    Always (· ∈ entries) (pick entries : Chance σ ℕ) := by
  refine (always_below h).bind fun place hplace => ?_
  rw [Array.getElem?_eq_getElem hplace]
  exact .pure (Array.getElem_mem hplace)

end Draws

end Betweenness.Chance
