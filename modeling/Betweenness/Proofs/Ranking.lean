import Betweenness.Table
import Mathlib.Algebra.Group.Int.Defs
import Mathlib.Algebra.Group.Nat.Defs
import Mathlib.Data.Int.Order.Basic
import Mathlib.Data.List.Nodup
import Mathlib.Data.Nat.Basic

/-!
# The highest scores

A report of a table lists its rows by falling score, and rows of one score by rising ids. Scores are
floats, of which some are no numbers and two are zero, so they are compared by their bits. The total
order of floats is that of the signed words `signedOrder pattern`: the bits of a float as they are,
or, where the sign is set, with all others turned over. Ranks (`patternRank`) are these words as
integers, and no two bit patterns share one.

`IsTop before rows count top` says of a list that it is the given number of the first rows in an
order, whatever their order in the table was: what is listed and what is left out are the rows, each
as often as it is there, and nothing comes before what stands in front of it. If the ids are
distinct, this leaves one list only.

## Main results

* `toInt_signedOrder`, `patternRank_injective`: ranks and the total order of floats.
* `VertexRow.order_eq_lt_iff`, `EdgeRow.order_eq_lt_iff`: which of two rows is listed first.
* `isTop_takeOrAll_mergeSort`, `mergeSort_eq_of_perm`: the first rows in an order.
* `top_ranks`: the reports of tables.
-/

namespace Betweenness

/-! ### The total order of floats -/

/-- The bits of a float as a signed word in the order of floats. Where the sign is set, all other
bits are turned over, so that a larger magnitude is a smaller number. -/
def signedOrder (pattern : UInt64) : Int64 :=
  let word := pattern.toInt64
  word ^^^ ((word >>> 63).toUInt64 >>> 1).toInt64

/-- To turn over all bits is to subtract from the word in which all are set. -/
theorem xor_two_pow_sub_one {w x : ℕ} (h : x < 2 ^ w) : x ^^^ (2 ^ w - 1) = 2 ^ w - 1 - x := by
  have hnot := congrArg BitVec.toNat (BitVec.xor_allOnes (x := BitVec.ofNat w x))
  rwa [BitVec.toNat_xor, BitVec.toNat_allOnes, BitVec.toNat_not, BitVec.toNat_ofNat,
    Nat.mod_eq_of_lt h] at hnot

section Turned

variable {b : BitVec 64}

/-- Without a sign nothing is turned over. -/
theorem toInt_turned_of_lt (h : b.toNat < 2 ^ 63) :
    (b ^^^ b.sshiftRight 63 >>> 1).toInt = b.toNat := by
  have hsign : b.msb = false := by simpa [BitVec.msb_eq_decide] using h
  have hmask : b.sshiftRight 63 >>> 1 = 0#64 := by
    rw [BitVec.sshiftRight_eq_of_msb_false hsign, ← BitVec.toNat_inj]
    simp only [BitVec.toNat_ushiftRight, Nat.shiftRight_eq_div_pow, BitVec.toNat_ofNat]
    omega
  rw [hmask, BitVec.xor_zero, BitVec.toInt_eq_msb_cond, hsign]
  rfl

/-- The sign stays, and the magnitude is turned over. -/
theorem toInt_turned_of_le (h : 2 ^ 63 ≤ b.toNat) :
    (b ^^^ b.sshiftRight 63 >>> 1).toInt = 2 ^ 63 - 1 - b.toNat := by
  have hlt := b.isLt
  have hsign : b.msb = true := by simpa [BitVec.msb_eq_decide] using h
  have hmask : (b.sshiftRight 63 >>> 1).toNat = 2 ^ 63 - 1 := by
    have hzero : ~~~b >>> 63 = 0#64 := by
      rw [← BitVec.toNat_inj]
      simp only [BitVec.toNat_ushiftRight, BitVec.toNat_not, Nat.shiftRight_eq_div_pow,
        BitVec.toNat_ofNat]
      omega
    rw [BitVec.sshiftRight_eq_of_msb_true hsign, hzero]
    rfl
  have hhigh : b.toNat / 2 ^ 63 = 1 := by omega
  have hlow : b.toNat % 2 ^ 63 = b.toNat - 2 ^ 63 := by omega
  have hturned : (b ^^^ b.sshiftRight 63 >>> 1).toNat =
      2 ^ 63 + (2 ^ 63 - 1 - (b.toNat - 2 ^ 63)) := by
    rw [BitVec.toNat_xor, hmask, ← Nat.div_add_mod (_ ^^^ _) (2 ^ 63), Nat.xor_div_two_pow,
      Nat.xor_mod_two_pow, hhigh, hlow, Nat.mod_eq_of_lt (a := 2 ^ 63 - 1) (by decide),
      xor_two_pow_sub_one (by omega)]
    rfl
  rw [BitVec.toInt_eq_toNat_cond, hturned, if_neg (by omega)]
  omega

end Turned

/-- The rank of a float is its place in the total order. -/
theorem toInt_signedOrder (pattern : UInt64) :
    (signedOrder pattern).toInt = patternRank pattern := by
  have hbits : (signedOrder pattern).toBitVec =
      pattern.toBitVec ^^^ pattern.toBitVec.sshiftRight 63 >>> 1 := by
    simp [signedOrder]
  rw [← Int64.toInt_toBitVec, hbits]
  simp only [patternRank]
  split
  · rename_i h
    exact toInt_turned_of_lt h
  · rename_i h
    exact toInt_turned_of_le (Nat.le_of_not_lt h)

/-- No two bit patterns have the same rank. -/
theorem patternRank_injective : Function.Injective patternRank := by
  intro p q h
  have hsign : signBit = 2 ^ 63 := rfl
  simp only [patternRank] at h
  rw [← UInt64.toNat_inj]
  split at h <;> split at h <;> omega

/-! ### The order of rows -/

section Rows

variable {α : Type} [Ranked α]

open Ranked (bits rank)

theorem compare_rank_eq_lt_iff {x y : α} :
    compare (rank y) (rank x) = .lt ↔ signedOrder (bits y) < signedOrder (bits x) := by
  rw [compare_lt_iff_lt, Int64.lt_iff_toInt_lt, toInt_signedOrder, toInt_signedOrder]
  rfl

theorem compare_rank_eq_eq_iff {x y : α} :
    compare (rank y) (rank x) = .eq ↔ bits x = bits y := by
  rw [Std.compare_eq_iff_eq]
  exact patternRank_injective.eq_iff.trans eq_comm

/-- A row comes before another if its score is the greater one or, where the scores have the same
bits, its vertex the smaller one. -/
def VertexRow.Before (a b : VertexRow α) : Prop :=
  signedOrder (bits b.score) < signedOrder (bits a.score) ∨
    bits a.score = bits b.score ∧ a.vertex < b.vertex

/-- A row comes before another if its score is the greater one or, where the scores have the same
bits, its source the smaller one or, where the sources are the same too, its target. -/
def EdgeRow.Before (a b : EdgeRow α) : Prop :=
  signedOrder (bits b.score) < signedOrder (bits a.score) ∨
    bits a.score = bits b.score ∧
      (a.source < b.source ∨ a.source = b.source ∧ a.target < b.target)

theorem VertexRow.order_eq_lt_iff {a b : VertexRow α} : a.order b = .lt ↔ a.Before b := by
  rw [order, Ordering.then_eq_lt, compare_rank_eq_lt_iff, compare_rank_eq_eq_iff,
    Nat.compare_eq_lt, Before]

theorem EdgeRow.order_eq_lt_iff {a b : EdgeRow α} : a.order b = .lt ↔ a.Before b := by
  rw [order, Ordering.then_eq_lt, Ordering.then_eq_lt, Ordering.then_eq_eq, compare_rank_eq_lt_iff,
    compare_rank_eq_eq_iff, Nat.compare_eq_lt, Nat.compare_eq_lt, Nat.compare_eq_eq, or_assoc,
    and_assoc, ← and_or_left, Before]

/-- Rows are compared by one key after the other. -/
instance : Std.TransCmp (VertexRow.order (α := α)) :=
  inferInstanceAs (Std.TransCmp (compareLex
    (fun a b => compareOn (fun r : VertexRow α => rank r.score) b a)
    (compareOn VertexRow.vertex)))

instance : Std.TransCmp (EdgeRow.order (α := α)) :=
  inferInstanceAs (Std.TransCmp (compareLex
    (compareLex (fun a b => compareOn (fun r : EdgeRow α => rank r.score) b a)
      (compareOn EdgeRow.source))
    (compareOn EdgeRow.target)))

end Rows

/-! ### The first rows in an order -/

/-- The list `top` has the given number of the first rows in an order, or all of them if the number
is zero. -/
structure IsTop {ρ : Type} (before : ρ → ρ → Prop) (rows : List ρ) (count : ℕ) (top : List ρ) :
    Prop where
  length_eq : top.length = if count = 0 then rows.length else min count rows.length
  /-- Nothing comes before what stands in front of it. -/
  ordered : top.Pairwise fun a b => ¬ before b a
  /-- What is listed and what is left out are the rows, each as often as it is there, and nothing
  that is left out comes before what is listed. -/
  exists_rest : ∃ rest, (top ++ rest).Perm rows ∧ ∀ a ∈ top, ∀ b ∈ rest, ¬ before b a

section FirstRows

variable {ρ : Type} {order : ρ → ρ → Ordering} [Std.TransCmp order] {rows rows' : List ρ}

theorem takeOrAll_prefix (count : ℕ) (rows : List ρ) : takeOrAll count rows <+: rows := by
  rw [takeOrAll]
  split
  · exact List.prefix_rfl
  · exact List.take_prefix count rows

/-- What does not come later in an order does not come after, and the other way round. -/
theorem isLE_iff_not_lt {a b : ρ} : (order a b).isLE = true ↔ order b a ≠ .lt := by
  rw [Ordering.isLE_iff_ne_gt, ne_eq, Std.OrientedCmp.gt_iff_lt]

/-- Sorted rows stand in their order. -/
theorem pairwise_mergeSort_order (order : ρ → ρ → Ordering) [Std.TransCmp order] (rows : List ρ) :
    (rows.mergeSort fun a b => (order a b).isLE).Pairwise fun a b => (order a b).isLE = true := by
  refine List.pairwise_mergeSort (fun _ _ _ => Std.TransCmp.isLE_trans) (fun a b => ?_) rows
  rw [Bool.or_eq_true, isLE_iff_not_lt, isLE_iff_not_lt]
  by_contra h
  obtain ⟨hba, hab⟩ : order b a = .lt ∧ order a b = .lt := by simpa using h
  exact Std.OrientedCmp.not_lt_of_lt hba hab

/-- The first of the sorted rows are the first rows in their order. -/
theorem isTop_takeOrAll_mergeSort {before : ρ → ρ → Prop}
    (hbefore : ∀ a b, order a b = .lt ↔ before a b) (count : ℕ) (rows : List ρ) :
    IsTop before rows count (takeOrAll count (rows.mergeSort fun a b => (order a b).isLE)) := by
  have hperm := List.mergeSort_perm rows fun a b => (order a b).isLE
  have hsorted : (rows.mergeSort fun a b => (order a b).isLE).Pairwise
      fun a b => ¬ before b a :=
    (pairwise_mergeSort_order order rows).imp fun h => (hbefore _ _).not.mp (isLE_iff_not_lt.mp h)
  obtain ⟨rest, hrest⟩ := takeOrAll_prefix count (rows.mergeSort fun a b => (order a b).isLE)
  rw [← hrest, List.pairwise_append] at hsorted
  exact {
    length_eq := by rw [length_takeOrAll, hperm.length_eq]
    ordered := hsorted.1
    exists_rest := ⟨rest, by rwa [hrest], hsorted.2.2⟩ }

/-- Rows in any order are sorted in the same way, if no two of them stand in the same place. -/
theorem mergeSort_eq_of_perm (hperm : rows'.Perm rows)
    (hunique : ∀ a ∈ rows, ∀ b ∈ rows, order a b = .eq → a = b) :
    (rows'.mergeSort fun a b => (order a b).isLE) = rows.mergeSort fun a b => (order a b).isLE := by
  have hsort := List.mergeSort_perm rows fun a b => (order a b).isLE
  have hsort' := List.mergeSort_perm rows' fun a b => (order a b).isLE
  refine List.Perm.eq_of_pairwise (fun a b ha hb hab hba => ?_)
    (pairwise_mergeSort_order order rows') (pairwise_mergeSort_order order rows)
    (hsort'.trans (hperm.trans hsort.symm))
  exact hunique a (hperm.subset (hsort'.subset ha)) b (hsort.subset hb)
    (Std.OrientedCmp.isLE_antisymm hab hba)

end FirstRows

/-! ### Reports of tables -/

section Reports

variable {α β : Type} [Storage α β] [Ranked α]

theorem VertexTable.top_isTop (t : VertexTable α β) (count : ℕ) :
    IsTop VertexRow.Before t.rows count (t.top count) :=
  isTop_takeOrAll_mergeSort (fun _ _ => VertexRow.order_eq_lt_iff) count t.rows

theorem EdgeTable.top_isTop (t : EdgeTable α β) (count : ℕ) :
    IsTop EdgeRow.Before t.rows count (t.top count) :=
  isTop_takeOrAll_mergeSort (fun _ _ => EdgeRow.order_eq_lt_iff) count t.rows

/-- If no vertex is repeated, the order of the rows does not matter. -/
theorem VertexTable.top_eq_of_perm {t t' : VertexTable α β} (count : ℕ)
    (hperm : t'.rows.Perm t.rows) (hnodup : (t.rows.map VertexRow.vertex).Nodup) :
    t'.top count = t.top count := by
  refine congrArg (takeOrAll count) (mergeSort_eq_of_perm hperm fun a ha b hb hab => ?_)
  refine List.inj_on_of_nodup_map hnodup ha hb ?_
  exact Nat.compare_eq_eq.mp (Ordering.then_eq_eq.mp hab).2

/-- If no pair of ends is repeated, the order of the rows does not matter. -/
theorem EdgeTable.top_eq_of_perm {t t' : EdgeTable α β} (count : ℕ)
    (hperm : t'.rows.Perm t.rows)
    (hnodup : (t.rows.map fun row => (row.source, row.target)).Nodup) :
    t'.top count = t.top count := by
  refine congrArg (takeOrAll count) (mergeSort_eq_of_perm hperm fun a ha b hb hab => ?_)
  obtain ⟨hab, htarget⟩ := Ordering.then_eq_eq.mp hab
  refine List.inj_on_of_nodup_map hnodup ha hb (Prod.ext ?_ (Nat.compare_eq_eq.mp htarget))
  exact Nat.compare_eq_eq.mp (Ordering.then_eq_eq.mp hab).2

variable (α β) in
/-- The report of a table has the first of its rows in the order of scores and ids, as many as are
asked for or all of them. It is the beginning of the report of all rows. If no vertex, or no pair of
ends, is repeated, a table with the same rows in any other order has the same report. Scores are
compared by their bits as doubles, whether or not they are numbers. -/
theorem top_ranks (count : ℕ) :
    (∀ t : VertexTable α β,
      IsTop VertexRow.Before t.rows count (t.top count) ∧ t.top count <+: t.top 0 ∧
      ∀ t' : VertexTable α β, t'.rows.Perm t.rows → (t.rows.map VertexRow.vertex).Nodup →
        t'.top count = t.top count) ∧
    ∀ t : EdgeTable α β,
      IsTop EdgeRow.Before t.rows count (t.top count) ∧ t.top count <+: t.top 0 ∧
      ∀ t' : EdgeTable α β, t'.rows.Perm t.rows →
        (t.rows.map fun row => (row.source, row.target)).Nodup → t'.top count = t.top count :=
  ⟨fun t =>
    ⟨t.top_isTop count, takeOrAll_prefix count _, fun _ => VertexTable.top_eq_of_perm count⟩,
  fun t =>
    ⟨t.top_isTop count, takeOrAll_prefix count _, fun _ => EdgeTable.top_eq_of_perm count⟩⟩

end Reports

/-- A bit pattern is ranked as the float that it stands for, so that floats which are no numbers are
told apart by their payloads. -/
instance : Ranked UInt64 where
  bits := id

/-- Bit patterns are kept as they are. -/
instance : Storage UInt64 UInt64 where
  store := id
  load := id

/-- Both zeros, both infinities, and two floats that are no numbers, of either sign. -/
def unusualScores : VertexTable UInt64 UInt64 where
  vertices := [7, 3, 9, 1, 5, 2, 8]
  scores := .double #[0x8000000000000000, 0, 0xFFF8000000000001, 0x7FF0000000000000,
    0xFFF0000000000000, 0x7FF8000000000001, 0]

/-- The rows of these scores in the order of a report. -/
def listedScores : List (VertexRow UInt64) :=
  [⟨2, 0x7FF8000000000001⟩, ⟨1, 0x7FF0000000000000⟩, ⟨3, 0⟩, ⟨8, 0⟩, ⟨7, 0x8000000000000000⟩,
    ⟨5, 0xFFF0000000000000⟩, ⟨9, 0xFFF8000000000001⟩]

/-- The float that is no number and has no sign is the first, the other one the last. Zeros of the
same sign are listed by their vertices. -/
theorem top_ranks_unusual : ∃ reversed : VertexTable UInt64 UInt64,
    reversed.rows = unusualScores.rows.reverse ∧
    (unusualScores.rows.map VertexRow.vertex).Nodup ∧
    reversed.top 5 = unusualScores.top 5 ∧ unusualScores.top 5 <+: unusualScores.top 0 ∧
    unusualScores.top 5 = listedScores.take 5 := by
  let reversed : VertexTable UInt64 UInt64 := {
    vertices := unusualScores.vertices.reverse
    scores := .double unusualScores.scores.toList.reverse.toArray }
  have hrows : reversed.rows = unusualScores.rows.reverse := by decide
  have hnodup : (unusualScores.rows.map VertexRow.vertex).Nodup := by decide
  obtain ⟨-, hprefix, hperm⟩ := (top_ranks UInt64 UInt64 5).1 unusualScores
  refine ⟨reversed, hrows, hnodup, hperm reversed ?_ hnodup, hprefix, ?_⟩
  · rw [hrows]
    exact List.reverse_perm _
  · have hsort : unusualScores.rows.Perm listedScores := by decide
    have hunique : ∀ a ∈ listedScores, ∀ b ∈ listedScores, a.order b = .eq → a = b := by
      decide +kernel
    have hsorted : listedScores.Pairwise fun a b => (a.order b).isLE = true := by decide +kernel
    rw [VertexTable.top, mergeSort_eq_of_perm hsort hunique, List.mergeSort_of_pairwise hsorted]
    rfl

end Betweenness
