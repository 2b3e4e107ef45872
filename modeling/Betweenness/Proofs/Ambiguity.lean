import Betweenness.Proofs.Graph.Loading
import Mathlib.Data.List.Nodup

/-!
# Numberings with more ids than indices

A lookup is ambiguous if two ids have the same index. Tables of ids have no such ids: they register
an id once, and refuse to register more ids than there are indices, whatever they are asked for. A
numbering without a table, in which every id below the number of vertices is its own index, may be
of any number of vertices. But an index is a 32-bit word, and an id that does not fit loses its
upper bits. So the numbering is ambiguous if there are more than `2 ^ 32` vertices, and only then.

Builders refuse ids that do not fit. The numberings of built graphs are sound
(`Builder.numbering_sound`), and sound numberings are unambiguous.

## Main results

* `IdTable.size_performAll_le`: a table has no more ids than there are indices.
* `Numbering.Sound.unambiguous`, `Numbering.Unambiguous.nodup_iff`: what soundness is good for.
* `Numbering.Formed.unambiguous_iff`: a numbering is ambiguous if and only if there are more
  vertices than indices.
* `Numbering.identity_ambiguous`: two ids with one index.
-/

namespace Betweenness

/-- A table never has more ids than there are indices. -/
theorem IdTable.size_performAll_le {t : IdTable} (ht : t.size ≤ maxIndex + 1)
    (ops : List Operation) : (t.performAll ops).size ≤ maxIndex + 1 :=
  performAll_keeps (P := fun t => t.size ≤ maxIndex + 1)
    (fun _ _ _ _ _ h => size_le_of_insertNew h) ht ops

namespace Numbering

variable {n : Numbering} {count : ℕ} {ids indices : List ℕ}

/-- An index is the index of one id, and this id is found by it. -/
def Unambiguous (n : Numbering) : Prop :=
  ∀ a b index, n.indexOf a = .ok index → n.indexOf b = .ok index → a = b ∧ n.idOf? index = some a

/-- Ids without repeats have indices without repeats. -/
def KeepsApart (n : Numbering) : Prop :=
  ∀ ids indices, n.translate ids = .ok indices → ids.Nodup → indices.Nodup

/-- The numberings there are: without a table, of any number of vertices, and with a table that has
been made from nothing or from a list of ids and has been asked for anything since. -/
inductive Formed : Numbering → Prop
  | identity (count : ℕ) : Formed (identity count)
  | table {start : IdTable} (hstart : start = .empty ∨ ∃ ids, IdTable.ofIds ids = .ok start)
      (ops : List IdTable.Operation) : Formed (table (start.performAll ops))

theorem Sound.unambiguous (h : n.Sound) : n.Unambiguous := by
  intro a b index ha hb
  have hid := (h.idOf_of_indexOf a index ha).2
  exact ⟨Option.some.inj (hid.symm.trans (h.idOf_of_indexOf b index hb).2), hid⟩

/-- Repeats among indices are repeats among ids. -/
theorem Unambiguous.nodup_iff (h : n.Unambiguous) (htranslate : n.translate ids = .ok indices) :
    ids.Nodup ↔ indices.Nodup := by
  have hunique : Relator.BiUnique fun id index => n.indexOf id = .ok index := by
    constructor
    · intro a b index ha hb
      exact (h a b index ha hb).1
    · intro id index index' hindex hindex'
      exact Except.ok.inj (hindex.symm.trans hindex')
  exact List.rel_nodup hunique (mapM_eq_ok_iff.mp htranslate)

theorem Unambiguous.keepsApart (h : n.Unambiguous) : n.KeepsApart :=
  fun _ _ htranslate => (h.nodup_iff htranslate).mp

/-- A table is sound, and has no more ids than there are indices. -/
theorem Formed.of_isTable (h : n.Formed) (htable : n.isTable = true) :
    n.Sound ∧ n.vertexCount ≤ maxIndex + 1 := by
  cases h with
  | identity count => cases htable
  | @table start hstart ops =>
      obtain ⟨hsound, hsize⟩ : start.Sound ∧ start.size ≤ maxIndex + 1 := by
        rcases hstart with rfl | ⟨ids, hids⟩
        · exact ⟨IdTable.sound_empty, Nat.zero_le _⟩
        · exact ⟨IdTable.sound_ofIds hids, IdTable.size_le_of_insertAllNew (Nat.zero_le _) hids⟩
      exact ⟨sound_table (IdTable.sound_performAll hsound ops),
        IdTable.size_performAll_le hsize ops⟩

/-- The first id that does not fit an index loses its upper bits, of which nothing is left. -/
theorem indexOf_identity_of_lt (h : maxIndex + 1 < count) :
    (identity count).indexOf 0 = .ok 0 ∧ (identity count).indexOf (maxIndex + 1) = .ok 0 := by
  refine ⟨if_pos (Nat.zero_lt_of_lt h), ?_⟩
  rw [indexOf, if_pos h, Nat.mod_self]

theorem translate_identity_of_lt (h : maxIndex + 1 < count) :
    (identity count).translate [0, maxIndex + 1] = .ok [0, 0] := by
  obtain ⟨hfirst, hlast⟩ := indexOf_identity_of_lt h
  exact mapM_eq_ok_iff.mpr (.cons hfirst (.cons hlast .nil))

theorem not_keepsApart_identity (h : maxIndex + 1 < count) : ¬ (identity count).KeepsApart := by
  intro hkeeps
  have hnodup : [0, 0].Nodup := hkeeps _ _ (translate_identity_of_lt h) (by decide)
  exact absurd hnodup (by decide)

/-- A numbering is unambiguous if and only if there are no more vertices than indices, and so it is
for the lists that it translates. If there is a table, there are no more. -/
theorem Formed.unambiguous_iff (h : n.Formed) :
    (n.Unambiguous ↔ n.vertexCount ≤ maxIndex + 1) ∧
    (n.KeepsApart ↔ n.vertexCount ≤ maxIndex + 1) ∧
    (n.isTable = true → n.vertexCount ≤ maxIndex + 1) := by
  have hunambiguous : n.vertexCount ≤ maxIndex + 1 → n.Unambiguous := by
    intro hfits
    cases h with
    | identity count => exact (sound_identity hfits).unambiguous
    | table hstart ops => exact ((Formed.table hstart ops).of_isTable rfl).1.unambiguous
  have hfits : n.KeepsApart → n.vertexCount ≤ maxIndex + 1 := by
    intro hkeeps
    cases h with
    | identity count => exact Nat.le_of_not_lt fun hlt => not_keepsApart_identity hlt hkeeps
    | table hstart ops => exact ((Formed.table hstart ops).of_isTable rfl).2
  exact ⟨⟨fun hn => hfits hn.keepsApart, hunambiguous⟩,
    ⟨hfits, fun hn => (hunambiguous hn).keepsApart⟩, fun htable => (h.of_isTable htable).2⟩

/-- Five vertices are told apart, and so are the ids of a table. -/
theorem unambiguous_iff_five : (identity 5).Formed ∧ (identity 5).Unambiguous ∧
    (identity 5).KeepsApart ∧
    (table (IdTable.empty.performAll [.insert 100, .insertNew 7, .insert 100])).Formed ∧
    (table (IdTable.empty.performAll [.insert 100, .insertNew 7, .insert 100])).Unambiguous := by
  have hfive : (identity 5).Formed := .identity 5
  obtain ⟨hunambiguous, hkeeps, -⟩ := hfive.unambiguous_iff
  have htable := Formed.table (.inl rfl) [.insert 100, .insertNew 7, .insert 100]
  obtain ⟨htold, -, hfits⟩ := htable.unambiguous_iff
  exact ⟨hfive, hunambiguous.mpr (by decide), hkeeps.mpr (by decide), htable,
    htold.mpr (hfits rfl)⟩

/-- One vertex more than there are indices: the first and the last one have the same index, by which
the first one is found. -/
theorem identity_ambiguous :
    (identity (2 ^ 32 + 1)).indexOf 0 = .ok 0 ∧ (identity (2 ^ 32 + 1)).indexOf (2 ^ 32) = .ok 0 ∧
    (identity (2 ^ 32 + 1)).idOf? 0 = some 0 ∧
    (identity (2 ^ 32 + 1)).translate [0, 2 ^ 32] = .ok [0, 0] ∧
    ¬ (identity (2 ^ 32 + 1)).Unambiguous ∧ ¬ (identity (2 ^ 32 + 1)).KeepsApart := by
  have hmore : maxIndex + 1 < 2 ^ 32 + 1 := by decide
  obtain ⟨hfirst, hlast⟩ := indexOf_identity_of_lt hmore
  have hrepeats := not_keepsApart_identity hmore
  exact ⟨hfirst, hlast, rfl, translate_identity_of_lt hmore,
    fun hn => hrepeats hn.keepsApart, hrepeats⟩

end Numbering

end Betweenness
