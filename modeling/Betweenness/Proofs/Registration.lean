import Betweenness.Proofs.Numbering
import Mathlib.Data.List.Dedup
import Mathlib.Data.List.Induction

/-!
# Registered ids stay

A table of ids is made once, from nothing or from a list of ids, and is then asked to register ids
or to look them up, in any order. `IdTable.perform` answers one such request. A registration that
is refused leaves the table as it was, and one that is not adds one id at the end
(`IdTable.Gains`). So the hash map and the array of a table never get out of step, and an index
that has been given out stays.

Indices are numbers below `2 ^ 32`. What is said about new ids holds as long as some are left.

## Main results

* `apply_registerNew_of_registered`, `exists_apply_registerNew`, `apply_registerNew_of_error`: one
  registration, refused or not, and what it leaves behind.
* `exists_ofIds`, `ofIds_of_repeat`: a list of ids makes a table, or its first repeated id is
  reported.
* `perform_of_error`: a request that fails leaves the table as it was.
* `perform_keeps`, `performAll_keeps`: the step lemma and the run lemma, for any requests.
* `performAll_reliable`: what a table promises to those who use it.
-/

namespace Betweenness

/-- A list with repeats has a first element that repeats an earlier one. -/
theorem exists_first_repeat {l : List ℕ} (h : ¬ l.Nodup) :
    ∃ before id after, l = before ++ id :: after ∧ before.Nodup ∧ id ∈ before := by
  induction l using List.reverseRecOn with
  | nil => exact absurd List.nodup_nil h
  | append_singleton l x ih =>
      by_cases hl : l.Nodup
      · have hx : x ∈ l := by
          by_contra hx
          exact h (List.nodup_append.mpr ⟨hl, List.nodup_singleton x, by
            rintro a ha b hb rfl
            exact hx (List.mem_singleton.mp hb ▸ ha)⟩)
        exact ⟨l, x, [], rfl, hl, hx⟩
      · obtain ⟨before, id, after, rfl, hnodup, hid⟩ := ih hl
        exact ⟨before, id, after ++ [x], by simp, hnodup, hid⟩

namespace IdTable

variable {t u : IdTable} {id index : ℕ}

/-! ### Registering an id -/

/-- What a new id makes of a table. -/
structure Gains (t : IdTable) (id : ℕ) (u : IdTable) : Prop where
  /-- The id comes after those that were there. -/
  ids_eq : u.ids = t.ids.push id
  /-- Its index is the size that the table had, and all other ids keep theirs. -/
  indexOf_eq : ∀ a, u.indexOf? a = if a = id then some t.size else t.indexOf? a

theorem Gains.size_eq (h : t.Gains id u) : u.size = t.size + 1 := by
  rw [size, h.ids_eq, Array.size_push]
  rfl

theorem contains_indices : t.indices.contains id = (t.indexOf? id).isSome :=
  Std.HashMap.contains_eq_isSome_getElem?

/-- An id that is registered is refused, and nothing has been written. -/
theorem apply_registerNew_of_registered (hsize : t.size ≤ maxIndex)
    (hid : t.indexOf? id = some index) :
    t.apply (registerNew id) = (.error (.duplicateVertex id), t) := by
  have hcontains : t.indices.contains id = true := by rw [contains_indices, hid, Option.isSome_some]
  rw [apply_registerNew, if_neg (Nat.not_lt.mpr hsize), if_pos hcontains]

/-- An id that is not registered is added, and its index is the old size. -/
theorem exists_apply_registerNew (hsize : t.size ≤ maxIndex) (hid : t.indexOf? id = none) :
    ∃ u, t.apply (registerNew id) = (.ok t.size, u) ∧ t.Gains id u := by
  have hcontains : ¬ t.indices.contains id = true := by
    rw [contains_indices, hid, Option.isSome_none]
    exact Bool.false_ne_true
  refine ⟨⟨t.indices.insert id t.size, t.ids.push id⟩, ?_, rfl, fun a => ?_⟩
  · rw [apply_registerNew, if_neg (Nat.not_lt.mpr hsize), if_neg hcontains]
  · simp only [indexOf?, Std.HashMap.getElem?_insert, beq_iff_eq, eq_comm (a := a)]

/-- A registration that is refused has written nothing. -/
theorem apply_registerNew_of_error {e : Error} (h : (t.apply (registerNew id)).1 = .error e) :
    (t.apply (registerNew id)).2 = t := by
  rw [apply_registerNew] at h ⊢
  split_ifs at h ⊢
  · rfl
  · rfl

theorem insertNew_of_registered (hsize : t.size ≤ maxIndex) (hid : t.indexOf? id = some index) :
    t.insertNew id = .error (.duplicateVertex id) := by
  rw [insertNew, apply_registerNew_of_registered hsize hid]
  rfl

theorem exists_insertNew (hsize : t.size ≤ maxIndex) (hid : t.indexOf? id = none) :
    ∃ u, t.insertNew id = .ok (t.size, u) ∧ t.Gains id u := by
  obtain ⟨u, hu, hgains⟩ := exists_apply_registerNew hsize hid
  exact ⟨u, by rw [insertNew, hu]; rfl, hgains⟩

/-- A registration that is not refused leaves the table with the new id. -/
theorem insertNew_of_apply (h : (t.apply (registerNew id)).1 = .ok index) :
    t.insertNew id = .ok (index, (t.apply (registerNew id)).2) := by
  rw [insertNew]
  simp only [h]
  rfl

/-- What was added was new. -/
theorem gains_of_insertNew (h : t.insertNew id = .ok (index, u)) :
    t.indexOf? id = none ∧ index = t.size ∧ t.Gains id u := by
  have hsize : t.size ≤ maxIndex := by
    by_contra hsize
    rw [insertNew_eq, if_pos (Nat.not_le.mp hsize)] at h
    cases h
  cases hid : t.indexOf? id with
  | some i =>
      rw [insertNew_of_registered hsize hid] at h
      cases h
  | none =>
      obtain ⟨v, hv, hgains⟩ := exists_insertNew hsize hid
      rw [hv] at h
      cases h
      exact ⟨rfl, rfl, hgains⟩

/-- The index of a registered id is found. -/
theorem insert_of_registered (hid : t.indexOf? id = some index) : t.insert id = .ok (index, t) := by
  rw [insert_eq, hid]

/-- An id that is not registered is added. -/
theorem insert_of_new (hid : t.indexOf? id = none) : t.insert id = t.insertNew id := by
  rw [insert_eq, hid]

/-! ### Registering a list -/

/-- Lists of ids are registered one after the other. -/
theorem insertAllNew_append (t : IdTable) (before after : List ℕ) :
    t.insertAllNew (before ++ after) = (t.insertAllNew before).bind fun u => u.insertAllNew after :=
  List.foldlM_append

theorem insertAllNew_cons (t : IdTable) (id : ℕ) (ids : List ℕ) :
    t.insertAllNew (id :: ids) = (t.insertNew id).bind fun x => x.2.insertAllNew ids := by
  cases h : t.insertNew id <;> simp [insertAllNew, h, bind, Except.bind, pure, Except.pure]

/-- **Run lemma**: ids that are new to a table, and different from each other, are added to it in
their order. -/
theorem exists_insertAllNew {ids : List ℕ} (hnew : ∀ id ∈ ids, t.indexOf? id = none)
    (hnodup : ids.Nodup) (hsize : t.size + ids.length ≤ maxIndex + 1) :
    ∃ u, t.insertAllNew ids = .ok u ∧ u.ids = t.ids ++ ids.toArray := by
  induction ids generalizing t with
  | nil => exact ⟨t, rfl, by simp⟩
  | cons id ids ih =>
      obtain ⟨hid, hnodup⟩ := List.nodup_cons.mp hnodup
      rw [List.length_cons] at hsize
      obtain ⟨u, hu, hgains⟩ := exists_insertNew (by omega) (hnew id List.mem_cons_self)
      have hfresh : ∀ a ∈ ids, u.indexOf? a = none := by
        intro a ha
        rw [hgains.indexOf_eq, if_neg (ne_of_mem_of_not_mem ha hid)]
        exact hnew a (List.mem_cons_of_mem _ ha)
      obtain ⟨v, hv, hids⟩ := ih hfresh hnodup (by rw [hgains.size_eq]; omega)
      refine ⟨v, ?_, ?_⟩
      · rw [insertAllNew_cons, hu]
        exact hv
      · rw [hids, hgains.ids_eq]
        simp

/-- A list of ids without repeats makes a table that lists them in their order. -/
theorem exists_ofIds {ids : List ℕ} (hnodup : ids.Nodup) (hsize : ids.length ≤ maxIndex + 1) :
    ∃ t, ofIds ids = .ok t ∧ t.ids = ids.toArray := by
  have hnew : ∀ id ∈ ids, empty.indexOf? id = none := fun _ _ => Std.HashMap.getElem?_empty
  obtain ⟨t, ht, hids⟩ :=
    exists_insertAllNew hnew hnodup (by simpa [empty, size] using hsize)
  exact ⟨t, ht, by simpa [empty] using hids⟩

/-- The first repeated id of a list is refused. -/
theorem ofIds_of_repeat {before after : List ℕ} (hnodup : before.Nodup) (hid : id ∈ before)
    (hsize : before.length ≤ maxIndex) :
    ofIds (before ++ id :: after) = .error (.duplicateVertex id) := by
  obtain ⟨t, ht, hids⟩ := exists_ofIds hnodup (Nat.le_succ_of_le hsize)
  have hsound : t.Sound := sound_insertAllNew sound_empty ht
  obtain ⟨index, hindex⟩ := List.mem_iff_getElem?.mp hid
  have hregistered : t.indexOf? id = some index := by
    rw [hsound, idAt?, hids, List.getElem?_toArray, hindex]
  have hroom : t.size ≤ maxIndex := by simpa [size, hids] using hsize
  rw [ofIds] at ht ⊢
  rw [insertAllNew_append, ht]
  change t.insertAllNew (id :: after) = _
  rw [insertAllNew_cons, insertNew_of_registered hroom hregistered]
  rfl

/-! ### Sequences of operations -/

/-- What a table can be asked for. -/
inductive Operation where
  | insertNew (id : ℕ)
  | insert (id : ℕ)
  | indexOf (id : ℕ)
  | idAt (index : ℕ)

/-- The answer to an operation, and the table that is there afterwards. -/
def perform (t : IdTable) : Operation → Except Error (Option ℕ) × IdTable
  | .insertNew id => t.apply (some <$> registerNew id)
  | .insert id => t.apply (some <$> register id)
  | .indexOf id => (.ok (t.indexOf? id), t)
  | .idAt index => (.ok (t.idAt? index), t)

/-- The table that is there after operations in turn. -/
def performAll (t : IdTable) (ops : List Operation) : IdTable :=
  ops.foldl (fun t op => (t.perform op).2) t

/-- **Step lemma**: an operation keeps what new ids keep. Nothing else changes a table. -/
theorem perform_keeps {P : IdTable → Prop} (ht : P t)
    (hnew : ∀ id index u, t.insertNew id = .ok (index, u) → P u) (op : Operation) :
    P (t.perform op).2 := by
  have hregister : ∀ id, P (t.apply (registerNew id)).2 := by
    intro id
    cases h : (t.apply (registerNew id)).1 with
    | error e => exact (apply_registerNew_of_error h).symm ▸ ht
    | ok index => exact hnew id index _ (insertNew_of_apply h)
  cases op with
  | insertNew id =>
      rw [perform, apply_map]
      exact hregister id
  | insert id =>
      rw [perform, apply_map, apply_register]
      cases hid : t.indexOf? id with
      | some index => exact ht
      | none => exact hregister id
  | indexOf id => exact ht
  | idAt index => exact ht

/-- An operation that fails leaves the table as it was, whatever it fails with. -/
theorem perform_of_error {op : Operation} {e : Error} (h : (t.perform op).1 = .error e) :
    (t.perform op).2 = t := by
  have hregister : ∀ id, some <$> (t.apply (registerNew id)).1 = .error e →
      (t.apply (registerNew id)).2 = t := by
    intro id h
    cases hanswer : (t.apply (registerNew id)).1 with
    | error e' => exact apply_registerNew_of_error hanswer
    | ok index =>
        rw [hanswer] at h
        cases h
  cases op with
  | insertNew id =>
      rw [perform, apply_map] at h ⊢
      exact hregister id h
  | insert id =>
      rw [perform, apply_map, apply_register] at h ⊢
      cases hid : t.indexOf? id with
      | some index => rfl
      | none =>
          rw [hid] at h
          exact hregister id h
  | indexOf id => cases h
  | idAt index => cases h

/-- **Run lemma**: operations in turn keep what new ids keep. -/
theorem performAll_keeps {P : IdTable → Prop}
    (hnew : ∀ t, P t → ∀ id index u, t.insertNew id = .ok (index, u) → P u) (ht : P t)
    (ops : List Operation) : P (t.performAll ops) := by
  induction ops generalizing t with
  | nil => exact ht
  | cons op ops ih => exact ih (perform_keeps ht (hnew t ht) op)

/-- Operations keep the two directions of a table inverse. -/
theorem sound_performAll (ht : t.Sound) (ops : List Operation) : (t.performAll ops).Sound :=
  performAll_keeps (fun _ ht _ _ _ h => sound_insertNew ht h) ht ops

/-- An id that is added is not one that has an index. -/
theorem indexOf?_of_insertNew {v : IdTable} {a i : ℕ} (h : t.insertNew a = .ok (i, v))
    (hid : t.indexOf? id = some index) : v.indexOf? id = some index := by
  obtain ⟨hnew, -, hgains⟩ := gains_of_insertNew h
  have hne : id ≠ a := by
    rintro rfl
    rw [hid] at hnew
    cases hnew
  rw [hgains.indexOf_eq, if_neg hne, hid]

/-- Operations in turn change no index that has been given out. -/
theorem indexOf?_performAll (hid : t.indexOf? id = some index) (ops : List Operation) :
    (t.performAll ops).indexOf? id = some index :=
  performAll_keeps (P := fun t => t.indexOf? id = some index)
    (fun _ ht _ _ _ h => indexOf?_of_insertNew h ht) hid ops

/-! ### What a table promises -/

/-- What a table promises to those who use it. -/
structure Reliable (t : IdTable) : Prop where
  /-- An id has an index exactly if the index has the id. -/
  indexOf_iff : ∀ id index, t.indexOf? id = some index ↔ t.idAt? index = some id
  /-- The indices are those below the size. -/
  exists_idAt_iff : ∀ index, (∃ id, t.idAt? index = some id) ↔ index < t.size
  /-- A registered id is no new one, and nothing changes. -/
  insertNew_registered : ∀ id index, t.indexOf? id = some index →
    t.perform (.insertNew id) = (.error (.duplicateVertex id), t)
  /-- A new id gets the next index, and nothing else changes. -/
  insertNew_new : ∀ id, t.indexOf? id = none →
    ∃ u, t.perform (.insertNew id) = (.ok (some t.size), u) ∧ t.Gains id u
  /-- The index of a registered id is found, and nothing changes. -/
  insert_registered : ∀ id index, t.indexOf? id = some index →
    t.perform (.insert id) = (.ok (some index), t)
  /-- An id that is not registered is registered as a new one. -/
  insert_new : ∀ id, t.indexOf? id = none → t.perform (.insert id) = t.perform (.insertNew id)
  /-- An index that has been given out stays. -/
  indexOf_stays : ∀ id index, t.indexOf? id = some index → ∀ later,
    (t.performAll later).indexOf? id = some index

/-- A sound table that has room keeps its promises. -/
theorem Sound.reliable (ht : t.Sound) (hsize : t.size ≤ maxIndex) : t.Reliable where
  indexOf_iff := ht
  exists_idAt_iff index := by
    rw [← Option.isSome_iff_exists, idAt?, size]
    simp
  insertNew_registered id index hid := by
    rw [perform, apply_map, apply_registerNew_of_registered hsize hid]
    rfl
  insertNew_new id hid := by
    obtain ⟨u, hu, hgains⟩ := exists_apply_registerNew hsize hid
    refine ⟨u, ?_, hgains⟩
    rw [perform, apply_map, hu]
    rfl
  insert_registered id index hid := by
    rw [perform, apply_map, apply_register, hid]
    rfl
  insert_new id hid := by rw [perform, perform, apply_map, apply_map, apply_register, hid]
  indexOf_stays id index hid later := indexOf?_performAll hid later

/-- A table made from nothing or from a list of ids is sound. -/
theorem sound_ofIds {ids : List ℕ} (h : ofIds ids = .ok t) : t.Sound :=
  sound_insertAllNew sound_empty h

/-- Whatever has been asked of a table since it was made: it keeps its promises as long as indices
are left. And a list makes a table unless an id repeats an earlier one, the first of which is
reported. -/
theorem performAll_reliable {start : IdTable}
    (hstart : start = .empty ∨ ∃ ids, ofIds ids = .ok start) (ops : List Operation)
    (hsize : (start.performAll ops).size ≤ maxIndex) :
    (start.performAll ops).Reliable ∧
    ∀ ids : List ℕ, ids.dedup.length ≤ maxIndex →
      ((∃ t, ofIds ids = .ok t) ↔ ids.Nodup) ∧
      (∀ t, ofIds ids = .ok t → ∀ index, t.idAt? index = ids[index]?) ∧
      ∀ e, ofIds ids = .error e → ∃ before id after, ids = before ++ id :: after ∧
        before.Nodup ∧ id ∈ before ∧ e = .duplicateVertex id := by
  have hsound : start.Sound := by
    rcases hstart with rfl | ⟨ids, hids⟩
    · exact sound_empty
    · exact sound_ofIds hids
  refine ⟨(sound_performAll hsound ops).reliable hsize, fun ids hroom => ?_⟩
  by_cases hnodup : ids.Nodup
  · rw [List.dedup_eq_self.mpr hnodup] at hroom
    obtain ⟨t, ht, hids⟩ := exists_ofIds hnodup (Nat.le_succ_of_le hroom)
    rw [ht]
    refine ⟨iff_of_true ⟨t, rfl⟩ hnodup, fun u hu index => ?_, fun e he => ?_⟩
    · obtain rfl := Except.ok.inj hu
      rw [idAt?, hids, List.getElem?_toArray]
    · cases he
  · obtain ⟨before, id, after, rfl, hbefore, hid⟩ := exists_first_repeat hnodup
    have hle : before.length ≤ (before ++ id :: after).dedup.length :=
      hbefore.length_le_of_subset fun a ha => List.mem_dedup.mpr (List.mem_append_left _ ha)
    rw [ofIds_of_repeat hbefore hid (Nat.le_trans hle hroom)]
    refine ⟨iff_of_false ?_ hnodup, fun t ht => ?_, fun e he => ?_⟩
    · rintro ⟨t, ht⟩
      cases ht
    · cases ht
    · exact ⟨before, id, after, rfl, hbefore, hid, (Except.error.inj he).symm⟩

/-- A table of three ids is asked for one of them as a new id, for a new id, and for one of them
again. And a list with two repeated ids reports the one that comes first. -/
theorem performAll_reliable_of_three : ∃ start, ofIds [100, 7, 42] = .ok start ∧
    (start.performAll [.insertNew 7, .insert 5, .insert 42]).size ≤ maxIndex ∧
    (start.performAll [.insertNew 7, .insert 5, .insert 42]).Reliable ∧
    (start.performAll [.insertNew 7, .insert 5, .insert 42]).indexOf? 5 = some 3 ∧
    [100, 7, 7, 100].dedup.length ≤ maxIndex ∧
    (¬ ∃ t, ofIds [100, 7, 7, 100] = .ok t) ∧
    ofIds [100, 7, 7, 100] = .error (.duplicateVertex 7) := by
  obtain ⟨start, hstart, hids⟩ : ∃ start, ofIds [100, 7, 42] = .ok start ∧
      (start.performAll [.insertNew 7, .insert 5, .insert 42]).ids = #[100, 7, 42, 5] := by
    simp [performAll, perform, apply_registerNew, apply_register, ofIds, insertAllNew, insertNew_eq,
      indexOf?, size, empty, maxIndex, bind, Except.bind, pure, Except.pure]
  have hsize : (start.performAll [.insertNew 7, .insert 5, .insert 42]).size ≤ maxIndex := by
    rw [size, hids]
    decide
  have hroom : [100, 7, 7, 100].dedup.length ≤ maxIndex := by decide
  obtain ⟨hreliable, hlists⟩ := performAll_reliable (.inr ⟨_, hstart⟩) _ hsize
  refine ⟨start, hstart, hsize, hreliable, ?_, hroom, ?_, ?_⟩
  · rw [hreliable.indexOf_iff, idAt?, hids]
    rfl
  · rw [(hlists _ hroom).1]
    decide
  · have hbefore : [100, 7].Nodup := by decide
    exact ofIds_of_repeat hbefore (by decide) (by decide)

end IdTable

end Betweenness
