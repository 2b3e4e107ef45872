import Betweenness.Graph.Builder
import Mathlib.Data.List.Forall2

/-!
# Numberings are one-to-one

A table of ids keeps two directions, a hash map and an array. `IdTable.Sound` says that they are
inverse to each other, and every way to register an id keeps them so. A `Numbering.Sound` numbering
gives its indices to distinct ids: an id that has an index is the id of that index, and every index
below the count is that of one id.

## Main results

* `IdTable.apply_registerNew`, `IdTable.apply_register`: what a registration answers and writes.
* `IdTable.sound_insertNew`, `IdTable.sound_insert`: the step lemmas, for one registration.
* `IdTable.sound_insertAllNew`, `IdTable.sound_insertAll`: the run lemmas, for a list of ids.
* `Builder.numbering_sound`: the numbering that a builder arrives at is sound.

The lemmas at the start say when computations that may fail succeed. They serve all checks of the
library that are made in turn.
-/

namespace Betweenness

/-! ### Computations that may fail -/

/-- Two computations in turn succeed when the first succeeds and the second does on its value. -/
theorem bind_eq_ok_iff {ε α β : Type} {x : Except ε α} {f : α → Except ε β} {b : β} :
    (x >>= f) = .ok b ↔ ∃ a, x = .ok a ∧ f a = .ok b := by
  cases x with
  | error e => simp [bind, Except.bind]
  | ok a => simp [bind, Except.bind]

/-- A function of a computation's value has the value of some value. -/
theorem map_eq_ok_iff {ε α β : Type} {x : Except ε α} {f : α → β} {b : β} :
    (f <$> x) = .ok b ↔ ∃ a, x = .ok a ∧ f a = b := by
  cases x with
  | error e => simp [Functor.map, Except.map]
  | ok a => simp [Functor.map, Except.map]

/-- A computation for each entry of a list succeeds when all of them do, and then it lists their
values. -/
theorem mapM_eq_ok_iff {ε α β : Type} {f : α → Except ε β} {l : List α} {m : List β} :
    l.mapM f = .ok m ↔ List.Forall₂ (fun a b => f a = .ok b) l m := by
  induction l generalizing m with
  | nil => simp [pure, Except.pure, eq_comm]
  | cons a l ih =>
      rw [List.mapM_cons, bind_eq_ok_iff, List.forall₂_cons_left_iff]
      constructor
      · rintro ⟨b, hb, h⟩
        obtain ⟨m', hm', h⟩ := bind_eq_ok_iff.mp h
        simp only [pure, Except.pure, Except.ok.injEq] at h
        exact ⟨b, m', hb, ih.mp hm', h.symm⟩
      · rintro ⟨b, m', hb, hm', rfl⟩
        exact ⟨b, hb, bind_eq_ok_iff.mpr ⟨m', ih.mpr hm', rfl⟩⟩

/-- An entry of the second of two related lists is related to an entry of the first. -/
theorem exists_of_mem_of_forall₂ {α β : Type} {R : α → β → Prop} {l : List α} {m : List β}
    (h : List.Forall₂ R l m) {b : β} (hb : b ∈ m) : ∃ a, a ∈ l ∧ R a b := by
  induction h with
  | nil => cases hb
  | cons hab _ ih =>
      rcases List.mem_cons.mp hb with rfl | hb
      · exact ⟨_, List.mem_cons_self, hab⟩
      · obtain ⟨a, ha, hab⟩ := ih hb
        exact ⟨a, List.mem_cons_of_mem _ ha, hab⟩

/-- What every step of a computation along a list keeps holds at its end. -/
theorem foldlM_keeps {ε α σ : Type} {f : σ → α → Except ε σ} {P : σ → Prop}
    (hstep : ∀ s a s', P s → f s a = .ok s' → P s') {s u : σ} {l : List α} (hs : P s)
    (h : l.foldlM f s = .ok u) : P u := by
  induction l generalizing s with
  | nil =>
      simp only [List.foldlM_nil, pure, Except.pure, Except.ok.injEq] at h
      exact h ▸ hs
  | cons a l ih =>
      rw [List.foldlM_cons] at h
      obtain ⟨s', hs', h⟩ := bind_eq_ok_iff.mp h
      exact ih (hstep s a s' hs hs') h

/-! ### Tables of ids -/

namespace IdTable

/-! #### What a change does -/

section Change

variable {α β : Type}

@[simp] theorem apply_pure (t : IdTable) (a : α) : t.apply (pure a) = (.ok a, t) := rfl

@[simp] theorem apply_throw (t : IdTable) (e : Error) :
    t.apply (throw e : Change α) = (.error e, t) := rfl

@[simp] theorem apply_get (t : IdTable) : t.apply get = (.ok t, t) := rfl

@[simp] theorem apply_modify (t : IdTable) (f : IdTable → IdTable) :
    t.apply (modify f) = (.ok (), f t) := rfl

/-- A second change starts from the table that the first has left, unless that has failed. -/
theorem apply_bind (t : IdTable) (change : Change α) (next : α → Change β) :
    t.apply (change >>= next) =
      match t.apply change with
      | (.ok a, u) => u.apply (next a)
      | (.error e, u) => (.error e, u) := by
  simp only [apply, ExceptT.run_bind, StateT.run_bind]
  rcases change.run.run t with ⟨_ | a, u⟩
  · rfl
  · rfl

@[simp] theorem apply_map (t : IdTable) (f : α → β) (change : Change α) :
    t.apply (f <$> change) = (f <$> (t.apply change).1, (t.apply change).2) := by
  rw [← bind_pure_comp, apply_bind]
  rcases t.apply change with ⟨_ | a, u⟩
  · rfl
  · rfl

end Change

theorem apply_nextIndex (t : IdTable) :
    t.apply nextIndex =
      if maxIndex < t.size then (.error .tooManyVertices, t) else (.ok t.size, t) := by
  rw [nextIndex, apply_bind, apply_get]
  by_cases hfull : maxIndex < t.size
  · simp [hfull]
  · simp [hfull]

/-- What registering a new id answers and writes. Both checks come before anything is written. -/
theorem apply_registerNew (t : IdTable) (id : ℕ) :
    t.apply (registerNew id) =
      if maxIndex < t.size then (.error .tooManyVertices, t)
      else if t.indices.contains id then (.error (.duplicateVertex id), t)
      else (.ok t.size, ⟨t.indices.insert id t.size, t.ids.push id⟩) := by
  rw [registerNew, apply_bind, apply_nextIndex]
  by_cases hfull : maxIndex < t.size
  · simp only [if_pos hfull]
  simp only [if_neg hfull, apply_bind, apply_get]
  by_cases hid : t.indices.contains id = true
  · simp [hid]
  · simp [hid]
    rfl

/-- What registering an id answers and writes. -/
theorem apply_register (t : IdTable) (id : ℕ) :
    t.apply (register id) =
      match t.indexOf? id with
      | some index => (.ok index, t)
      | none => t.apply (registerNew id) := by
  rw [register, apply_bind, apply_get]
  cases hid : t.indexOf? id with
  | some index => simp [hid]
  | none => simp [hid]

theorem insertNew_eq (t : IdTable) (id : ℕ) :
    t.insertNew id =
      if maxIndex < t.size then .error .tooManyVertices
      else if t.indices.contains id then .error (.duplicateVertex id)
      else .ok (t.size, ⟨t.indices.insert id t.size, t.ids.push id⟩) := by
  rw [insertNew, apply_registerNew]
  by_cases hfull : maxIndex < t.size
  · simp only [if_pos hfull]
    rfl
  · by_cases hid : t.indices.contains id = true
    · simp only [if_neg hfull, if_pos hid]
      rfl
    · simp only [if_neg hfull, if_neg hid]
      rfl

theorem insert_eq (t : IdTable) (id : ℕ) :
    t.insert id =
      match t.indexOf? id with
      | some index => .ok (index, t)
      | none => t.insertNew id := by
  rw [insert, apply_register]
  cases t.indexOf? id with
  | some index => rfl
  | none => rfl

/-! #### The two directions -/

/-- The two directions of a table are inverse to each other. -/
def Sound (t : IdTable) : Prop := ∀ id index, t.indexOf? id = some index ↔ t.idAt? index = some id

/-- The empty table is sound. -/
theorem sound_empty : empty.Sound := by
  intro id index
  simp [empty, indexOf?, idAt?]

/-- **Step lemma**: registering a new id keeps the two directions inverse. The new id had no
index, and the new index had no id. -/
theorem sound_insertNew {t u : IdTable} {id index : ℕ} (ht : t.Sound)
    (h : t.insertNew id = .ok (index, u)) : u.Sound := by
  rw [insertNew_eq] at h
  split at h
  · cases h
  split at h
  · cases h
  rename_i hnew
  cases h
  intro a i
  have hold := ht a i
  simp only [indexOf?, idAt?, size] at hold ⊢
  rw [Std.HashMap.getElem?_insert, Array.getElem?_push]
  by_cases ha : id = a
  · subst ha
    have hnone : t.indices[id]? = none := Std.HashMap.getElem?_eq_none_of_contains_eq_false
      (by simpa using hnew)
    rw [hnone] at hold
    by_cases hi : i = t.ids.size
    · simp [hi]
    · simp only [BEq.rfl, if_true, Option.some.injEq, if_neg hi]
      exact ⟨fun h => absurd h.symm hi, fun h => absurd (hold.mpr h) (by simp)⟩
  · have hne : (id == a) = false := by simpa using ha
    simp only [hne, Bool.false_eq_true, if_false]
    by_cases hi : i = t.ids.size
    · subst hi
      rw [if_pos rfl, hold]
      simp [ha]
    · rw [if_neg hi, hold]

/-- **Step lemma**: registering an id, unless it is registered, keeps the two directions
inverse. -/
theorem sound_insert {t u : IdTable} {id index : ℕ} (ht : t.Sound)
    (h : t.insert id = .ok (index, u)) : u.Sound := by
  rw [insert_eq] at h
  split at h
  · cases h
    exact ht
  · exact sound_insertNew ht h

/-- **Run lemma**: registering new ids in turn keeps a table sound. -/
theorem sound_insertAllNew {t u : IdTable} {ids : List ℕ} (ht : t.Sound)
    (h : t.insertAllNew ids = .ok u) : u.Sound := by
  refine foldlM_keeps (fun t id t' ht h => ?_) ht h
  obtain ⟨⟨index, t''⟩, hnew, hpure⟩ := bind_eq_ok_iff.mp h
  cases hpure
  exact sound_insertNew ht hnew

/-- **Run lemma**: registering ids in turn, those that are new, keeps a table sound. -/
theorem sound_insertAll {t u : IdTable} {ids : List ℕ} (ht : t.Sound)
    (h : t.insertAll ids = .ok u) : u.Sound := by
  refine foldlM_keeps (fun t id t' ht h => ?_) ht h
  obtain ⟨⟨index, t''⟩, hnew, hpure⟩ := bind_eq_ok_iff.mp h
  cases hpure
  exact sound_insert ht hnew

end IdTable

/-! ### Numberings -/

namespace Numbering

/-- A numbering gives its indices, those below the count, to distinct ids. -/
structure Sound (n : Numbering) : Prop where
  /-- The index of an id is an index, and the id is the id of its index. -/
  idOf_of_indexOf : ∀ id index, n.indexOf id = .ok index →
    index < n.vertexCount ∧ n.idOf? index = some id
  /-- Every index is the index of an id. -/
  exists_indexOf : ∀ index, index < n.vertexCount → ∃ id, n.indexOf id = .ok index

/-- A row of ids and the ends that it has as indices. -/
def Translates (n : Numbering) (row ends : ℕ × ℕ) : Prop :=
  n.indexOf row.1 = .ok ends.1 ∧ n.indexOf row.2 = .ok ends.2

/-- A row has no other ends. -/
theorem rightUnique_translates {n : Numbering} : Relator.RightUnique n.Translates := by
  rintro row ⟨v, w⟩ ⟨v', w'⟩ ⟨hv, hw⟩ ⟨hv', hw'⟩
  exact Prod.ext (Except.ok.inj (hv.symm.trans hv')) (Except.ok.inj (hw.symm.trans hw'))

/-- With a table, an id has the index under which it is registered. -/
theorem indexOf_table_iff {t : IdTable} {id index : ℕ} :
    (table t).indexOf id = .ok index ↔ t.indexOf? id = some index := by
  rw [indexOf]
  cases t.indexOf? id <;> simp

/-- A numbering by a sound table is sound. -/
theorem sound_table {t : IdTable} (ht : t.Sound) : (table t).Sound where
  idOf_of_indexOf := by
    intro id index h
    have hid := (ht id index).mp (indexOf_table_iff.mp h)
    exact ⟨(Array.getElem?_eq_some_iff.mp hid).1, hid⟩
  exists_indexOf := by
    intro index h
    have hid : t.idAt? index = some t.ids[index] := Array.getElem?_eq_getElem h
    exact ⟨t.ids[index], indexOf_table_iff.mpr ((ht _ index).mpr hid)⟩

/-- An identity numbering is sound, as long as its indices fit 32 bits. -/
theorem sound_identity {count : ℕ} (h : count ≤ maxIndex + 1) : (identity count).Sound where
  idOf_of_indexOf := by
    intro id index hindex
    simp only [indexOf] at hindex
    split at hindex
    · rename_i hid
      rw [Nat.mod_eq_of_lt (Nat.lt_of_lt_of_le hid h)] at hindex
      cases hindex
      exact ⟨hid, rfl⟩
    · cases hindex
  exists_indexOf := by
    intro index hindex
    refine ⟨index, ?_⟩
    simp only [vertexCount] at hindex
    rw [indexOf, if_pos hindex, Nat.mod_eq_of_lt (Nat.lt_of_lt_of_le hindex h)]

/-- An id without an index is reported. -/
theorem indexOf_eq_error {n : Numbering} {id : ℕ} (h : ∀ v, n.indexOf id ≠ .ok v) :
    n.indexOf id = .error (.vertexNotFound id) := by
  cases n with
  | identity count =>
      rw [indexOf]
      exact if_neg fun hid => h _ (if_pos hid)
  | table ids =>
      cases hid : ids.indexOf? id with
      | none => simp only [indexOf, hid]
      | some v => exact absurd (by simp only [indexOf, hid]) (h v)

end Numbering

/-- The count of an identity numbering fits 32 bits, as no id above the largest index is let in. -/
theorem Builder.identityCount_le {b : Builder} {count : ℕ} (h : b.identityCount = .ok count) :
    count ≤ maxIndex := by
  unfold identityCount at h
  split at h
  · cases h
  split at h
  · cases h
    exact Nat.zero_le _
  split at h
  · cases h
    assumption
  · cases h

/-- The numbering that a builder arrives at is sound. -/
theorem Builder.numbering_sound {b : Builder} {n : Numbering} (h : b.numbering = .ok n) :
    n.Sound := by
  unfold numbering at h
  split at h
  · obtain ⟨t, ht, rfl⟩ := map_eq_ok_iff.mp h
    obtain ⟨declared, hdeclared, hall⟩ := bind_eq_ok_iff.mp ht
    exact Numbering.sound_table
      (IdTable.sound_insertAll (IdTable.sound_insertAllNew IdTable.sound_empty hdeclared) hall)
  · obtain ⟨count, hcount, rfl⟩ := map_eq_ok_iff.mp h
    exact Numbering.sound_identity (Nat.le_succ_of_le (identityCount_le hcount))

end Betweenness
