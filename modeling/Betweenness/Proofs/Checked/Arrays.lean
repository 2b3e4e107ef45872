import Mathlib.Data.List.Forall2

/-!
# Arrays that insist on their bounds

The definitions of the library read arrays with a default and leave an array as it is when they
write beyond its end, so none of them ever fails. A program that insists on the bounds of its
arrays does. To say that no index is out of range, a definition is put beside one that does
the same with the operations below, which have no result where an index is out of range: reading
`a[i]?`, writing `write?`, changing an entry `update?`, and cutting out a part `slice?`. That the
second has a result, and which, is the statement.

## Main results

* `foldlM_eq_some`: the run lemma. A loop has a result if every step has one in all the states
  that it can come to.
* `foldlM_write?_eq`: so a loop that writes at places that there are.
-/

namespace Betweenness.Checked

variable {β σ τ : Type}

/-- Write an entry, which there has to be. -/
def write? (a : Array β) (i : ℕ) (x : β) : Option (Array β) :=
  if i < a.size then some (a.setIfInBounds i x) else none

/-- Change an entry, which there has to be. -/
def update? (a : Array β) (i : ℕ) (f : β → β) : Option (Array β) :=
  if i < a.size then some (a.modify i f) else none

/-- The entries from one position up to another, which have to be in this order. -/
def slice? (a : Array β) (start stop : ℕ) : Option (Array β) :=
  if start ≤ stop ∧ stop ≤ a.size then some (a.extract start stop) else none

theorem some_bind {γ : Type} (x : β) (f : β → Option γ) : (some x >>= f) = f x := rfl

theorem write?_eq {a : Array β} {i : ℕ} (h : i < a.size) (x : β) :
    write? a i x = some (a.setIfInBounds i x) := if_pos h

theorem update?_eq {a : Array β} {i : ℕ} (h : i < a.size) (f : β → β) :
    update? a i f = some (a.modify i f) := if_pos h

theorem slice?_eq {a : Array β} {start stop : ℕ} (h : start ≤ stop) (hstop : stop ≤ a.size) :
    slice? a start stop = some (a.extract start stop) := if_pos ⟨h, hstop⟩

/-- Reading an entry that there is comes to the same as reading it with a default. -/
theorem getElem?_eq_getD {a : Array β} {i : ℕ} (h : i < a.size) (x : β) :
    a[i]? = some (a.getD i x) := by
  rw [Array.getD_eq_getD_getElem?, Array.getElem?_eq_getElem h, Option.getD_some]

theorem mem_of_mem_extract {a : Array β} {start stop : ℕ} {x : β}
    (h : x ∈ a.extract start stop) : x ∈ a := by
  obtain ⟨i, hi, rfl⟩ := Array.mem_extract_iff_getElem.mp h
  exact Array.getElem_mem _

/-- **Run lemma**: a loop over a list has a result if its step has one in every state with some
property, which the step keeps. -/
theorem foldlM_eq_some {step? : σ → τ → Option σ} {step : σ → τ → σ} {P : σ → Prop} {l : List τ}
    {s : σ} (hs : P s) (hstep : ∀ s, P s → ∀ a ∈ l, step? s a = some (step s a) ∧ P (step s a)) :
    l.foldlM step? s = some (l.foldl step s) ∧ P (l.foldl step s) := by
  induction l generalizing s with
  | nil => exact ⟨rfl, hs⟩
  | cons a l ih =>
      obtain ⟨heq, hP⟩ := hstep s hs a List.mem_cons_self
      rw [List.foldlM_cons, heq]
      exact ih hP fun s hs b hb => hstep s hs b (List.mem_cons_of_mem _ hb)

/-- **Run lemma**, for a loop over an array. -/
theorem foldlM_array_eq_some {step? : σ → τ → Option σ} {step : σ → τ → σ} {P : σ → Prop}
    {a : Array τ} {s : σ} (hs : P s)
    (hstep : ∀ s, P s → ∀ x ∈ a, step? s x = some (step s x) ∧ P (step s x)) :
    a.foldlM step? s = some (a.foldl step s) ∧ P (a.foldl step s) := by
  rw [← Array.foldlM_toList, ← Array.foldl_toList]
  exact foldlM_eq_some hs fun s hs x hx => hstep s hs x (Array.mem_toList_iff.mp hx)

/-- Writing at several places is in bounds if every one of them is. -/
theorem foldlM_write?_eq {l : List τ} {n : ℕ} {a : Array β} (key : τ → ℕ) (value : τ → β)
    (hsize : a.size = n) (hkeys : ∀ x ∈ l, key x < n) :
    l.foldlM (fun a x => write? a (key x) (value x)) a =
      some (l.foldl (fun a x => a.setIfInBounds (key x) (value x)) a) ∧
        (l.foldl (fun a x => a.setIfInBounds (key x) (value x)) a).size = n := by
  refine foldlM_eq_some (P := fun a : Array β => a.size = n) hsize fun a ha x hx => ?_
  exact ⟨write?_eq (ha.symm ▸ hkeys x hx) _, Array.size_setIfInBounds.trans ha⟩

/-- A result for every entry of a list is a list of results. -/
theorem mapM_eq_some {f? : τ → Option β} {f : τ → β} {l : List τ}
    (h : ∀ a ∈ l, f? a = some (f a)) : l.mapM f? = some (l.map f) := by
  induction l with
  | nil => rfl
  | cons a l ih =>
      rw [List.mapM_cons, h a List.mem_cons_self, ih fun b hb => h b (List.mem_cons_of_mem _ hb)]
      rfl

/-- A result beside every entry of a list. -/
theorem mapM_tag_eq_some {f? : τ → Option β} {f : τ → β} {l : List τ}
    (h : ∀ a ∈ l, f? a = some (f a)) :
    (l.mapM fun a => do return (a, ← f? a)) = some (l.map fun a => (a, f a)) :=
  mapM_eq_some fun a ha => by
    rw [h a ha, some_bind]
    rfl

end Betweenness.Checked
