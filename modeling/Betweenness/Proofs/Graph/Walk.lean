import Betweenness.Proofs.Graph.Adjacency
import Mathlib.Data.Set.Finite.Lattice
import Mathlib.Order.Lattice.Nat

/-!
# Walks and distances

`Walk g s p t` says that `p` lists the vertices that a walk from `s` to `t` comes to after `s`, so
that the length of `p` is the number of its steps. Whether there is a step from one vertex to
another is read off the edge list (`Graph.Linked`). The distance of `t` from `s` is the least
length of a walk.

## Main results

* `walk_append_iff`: a walk along `p ++ q` is a walk along `p` and one along `q` from its end.
* `atDistance_succ_iff`: the recurrence behind every search by levels. A vertex is `d + 1` away if
  it is one step beyond a vertex that is `d` away, and not nearer.
* `AtDistance.exists_of_le`: no distance is skipped on the way to a vertex.
* `finite_walks`: there are finitely many walks of a length.
-/

namespace Betweenness.Graph

/-- A walk from one vertex to another, with the list of the vertices it comes to after the
first. -/
inductive Walk (g : Graph) : ℕ → List ℕ → ℕ → Prop
  | nil (v : ℕ) : Walk g v [] v
  | cons {u v w : ℕ} {p : List ℕ} : g.Linked u v → Walk g v p w → Walk g u (v :: p) w

/-- There is a walk from one vertex to the other. -/
def Reaches (g : Graph) (s t : ℕ) : Prop := ∃ p, g.Walk s p t

/-- The numbers of steps of the walks from one vertex to another. -/
def walkLengths (g : Graph) (s t : ℕ) : Set ℕ := {k | ∃ p, g.Walk s p t ∧ p.length = k}

/-- The least number of steps from `s` to a vertex is `d`. -/
def AtDistance (g : Graph) (s d t : ℕ) : Prop := IsLeast (g.walkLengths s t) d

/-- The least number of steps of a walk, if there is one. -/
noncomputable def distance (g : Graph) (s t : ℕ) : ℕ := sInf (g.walkLengths s t)

variable {g : Graph} {s t u v w : ℕ} {p q : List ℕ}

/-! ### Walks -/

@[simp] theorem walk_nil_iff : g.Walk u [] w ↔ u = w := by
  constructor
  · rintro ⟨⟩
    rfl
  · rintro rfl
    exact .nil u

@[simp] theorem walk_cons_iff : g.Walk u (v :: p) w ↔ g.Linked u v ∧ g.Walk v p w := by
  constructor
  · rintro ⟨⟩
    exact ⟨‹_›, ‹_›⟩
  · rintro ⟨huv, h⟩
    exact .cons huv h

/-- A walk along two lists in turn passes from the one to the other at some vertex. -/
theorem walk_append_iff : g.Walk u (p ++ q) w ↔ ∃ v, g.Walk u p v ∧ g.Walk v q w := by
  induction p generalizing u with
  | nil => simp
  | cons x p ih =>
      rw [List.cons_append, walk_cons_iff, ih]
      constructor
      · rintro ⟨hux, v, hp, hq⟩
        exact ⟨v, .cons hux hp, hq⟩
      · rintro ⟨v, hp, hq⟩
        obtain ⟨hux, hp⟩ := walk_cons_iff.mp hp
        exact ⟨hux, v, hp, hq⟩

/-- Two walks in turn are a walk. -/
theorem Walk.append (hp : g.Walk u p v) (hq : g.Walk v q w) : g.Walk u (p ++ q) w :=
  walk_append_iff.mpr ⟨v, hp, hq⟩

/-- A walk goes on by a step. -/
theorem Walk.snoc (hp : g.Walk u p v) (h : g.Linked v w) : g.Walk u (p ++ [w]) w :=
  hp.append (.cons h (.nil w))

/-- A list of vertices leads to one vertex only. -/
theorem Walk.unique (h : g.Walk u p v) (h' : g.Walk u p w) : v = w := by
  induction h with
  | nil u => exact walk_nil_iff.mp h'
  | cons _ _ ih => exact ih (walk_cons_iff.mp h').2

/-- A walk that takes a step has a last one. -/
theorem Walk.exists_snoc (h : g.Walk u p w) (hp : p ≠ []) :
    ∃ q v, p = q ++ [w] ∧ g.Walk u q v ∧ g.Linked v w := by
  obtain ⟨q, x, rfl⟩ := List.eq_nil_or_concat' p |>.resolve_left hp
  obtain ⟨v, hq, hx⟩ := walk_append_iff.mp h
  obtain ⟨hvx, hxw⟩ := walk_cons_iff.mp hx
  obtain rfl := walk_nil_iff.mp hxw
  exact ⟨q, v, rfl, hq, hvx⟩

/-- A walk that comes to a vertex is a walk to it and one from it. -/
theorem Walk.split (h : g.Walk u p w) (hv : v ∈ u :: p) :
    ∃ q r, p = q ++ r ∧ g.Walk u q v ∧ g.Walk v r w := by
  induction h with
  | nil u =>
      obtain rfl := List.mem_singleton.mp hv
      exact ⟨[], [], rfl, .nil v, .nil v⟩
  | @cons u x w p hux h ih =>
      rcases List.mem_cons.mp hv with rfl | hv
      · exact ⟨[], x :: p, rfl, .nil v, .cons hux h⟩
      · obtain ⟨q, r, rfl, hq, hr⟩ := ih hv
        exact ⟨x :: q, r, rfl, .cons hux hq, hr⟩

/-- A walk that takes a step is a walk to the step, the step, and a walk from it. -/
theorem Walk.split_step {a b : ℕ} (h : g.Walk u p w) (hstep : [a, b] <:+: u :: p) :
    ∃ q r, p = q ++ b :: r ∧ g.Walk u q a ∧ g.Linked a b ∧ g.Walk b r w := by
  induction h with
  | nil u =>
      have hlen := hstep.length_le
      simp at hlen
  | @cons u x w p hux h ih =>
      rcases List.infix_cons_iff.mp hstep with hstep | hstep
      · obtain ⟨rfl, hb⟩ := List.cons_prefix_cons.mp hstep
        obtain ⟨rfl, -⟩ := List.cons_prefix_cons.mp hb
        exact ⟨[], p, rfl, .nil a, hux, h⟩
      · obtain ⟨q, r, rfl, hq, hab, hr⟩ := ih hstep
        exact ⟨x :: q, r, rfl, .cons hux hq, hab, hr⟩

/-- A walk ends with the last of its vertices. -/
theorem Walk.mem_end (h : g.Walk u p w) : w ∈ u :: p := by
  induction h with
  | nil u => exact List.mem_cons_self
  | cons _ _ ih => exact List.mem_cons_of_mem _ ih

/-- A walk takes the step that joins two parts of it. -/
theorem Walk.step_infix {a b : ℕ} (h : g.Walk u p a) (q : List ℕ) :
    [a, b] <:+: u :: (p ++ b :: q) := by
  induction h with
  | nil u => exact ⟨[], q, rfl⟩
  | @cons u x w p _ _ ih => exact List.infix_cons ih

/-! ### Distances -/

theorem AtDistance.reaches {d : ℕ} (h : g.AtDistance s d t) : g.Reaches s t := by
  obtain ⟨p, hp, -⟩ := h.1
  exact ⟨p, hp⟩

/-- Whatever is reached has a distance. -/
theorem Reaches.atDistance (h : g.Reaches s t) : g.AtDistance s (g.distance s t) t := by
  obtain ⟨p, hp⟩ := h
  exact isLeast_csInf ⟨p.length, p, hp, rfl⟩

/-- A vertex has one distance. -/
theorem AtDistance.unique {d d' : ℕ} (h : g.AtDistance s d t) (h' : g.AtDistance s d' t) :
    d = d' :=
  IsLeast.unique h h'

/-- The distance of a vertex is its least number of steps. -/
theorem AtDistance.distance_eq {d : ℕ} (h : g.AtDistance s d t) : g.distance s t = d :=
  h.reaches.atDistance.unique h

/-- No walk has fewer steps than the distance. -/
theorem Walk.distance_le (h : g.Walk s p t) : g.distance s t ≤ p.length :=
  Nat.sInf_le ⟨p, h, rfl⟩

/-- A walk with as many steps as any other shows the distance. -/
theorem AtDistance.of_walk {d : ℕ} (h : g.Walk s p t) (hlen : p.length = d)
    (hleast : ∀ q, g.Walk s q t → d ≤ q.length) : g.AtDistance s d t := by
  refine ⟨⟨p, h, hlen⟩, ?_⟩
  rintro k ⟨q, hq, rfl⟩
  exact hleast q hq

/-- Only the vertex itself is no step away. -/
@[simp] theorem atDistance_zero_iff : g.AtDistance s 0 t ↔ t = s := by
  constructor
  · rintro ⟨⟨p, hp, hlen⟩, -⟩
    obtain rfl := List.length_eq_zero_iff.mp hlen
    exact (walk_nil_iff.mp hp).symm
  · rintro rfl
    exact .of_walk (.nil t) rfl fun _ _ => Nat.zero_le _

/-- What is some steps away is not the vertex itself. -/
theorem AtDistance.ne {d : ℕ} (h : g.AtDistance s (d + 1) t) : t ≠ s := by
  rintro rfl
  exact absurd (h.unique (atDistance_zero_iff.mpr rfl)) (Nat.succ_ne_zero d)

/-- A vertex is `d + 1` steps away if it is one step beyond a vertex that is `d` steps away, and
not nearer. -/
theorem atDistance_succ_iff {d : ℕ} : g.AtDistance s (d + 1) w ↔
    (∃ v, g.AtDistance s d v ∧ g.Linked v w) ∧ ∀ k ≤ d, ¬ g.AtDistance s k w := by
  constructor
  · intro h
    refine ⟨?_, fun k hk hk' => by have := h.unique hk'; omega⟩
    obtain ⟨p, hp, hlen⟩ := h.1
    obtain ⟨q, v, rfl, hq, hvw⟩ := hp.exists_snoc (by rintro rfl; simp at hlen)
    refine ⟨v, .of_walk hq (by simpa using hlen) fun r hr => ?_, hvw⟩
    have hle := h.2 ⟨r ++ [w], hr.snoc hvw, rfl⟩
    simpa using hle
  · rintro ⟨⟨v, hv, hvw⟩, hnot⟩
    obtain ⟨q, hq, hlen⟩ := hv.1
    refine .of_walk (hq.snoc hvw) (by simp [hlen]) fun r hr => ?_
    have hreach : g.Reaches s w := ⟨r, hr⟩
    have hgt : ¬ g.distance s w ≤ d := fun hle => hnot _ hle hreach.atDistance
    have hle := hr.distance_le
    omega

/-- No distance is skipped on the way to a vertex. -/
theorem AtDistance.exists_of_le {d k : ℕ} (h : g.AtDistance s d t) (hk : k ≤ d) :
    ∃ v, g.AtDistance s k v := by
  induction d generalizing t with
  | zero =>
      obtain rfl := Nat.le_zero.mp hk
      exact ⟨t, h⟩
  | succ d ih =>
      rcases Nat.le_succ_iff.mp hk with hk | rfl
      · obtain ⟨⟨v, hv, -⟩, -⟩ := atDistance_succ_iff.mp h
        exact ih hv hk
      · exact ⟨t, h⟩

/-! ### Consistent graphs -/

namespace Consistent

/-- An edge leads from and to vertices. -/
theorem lt_of_joins (hg : g.Consistent) {e : ℕ} (h : g.Joins e v w) :
    v < g.nodeCount ∧ w < g.nodeCount := by
  rcases h with h | ⟨-, h⟩
  · exact hg.endpoints_lt _ _ _ h
  · exact (hg.endpoints_lt _ _ _ h).symm

/-- A step leads from and to vertices. -/
theorem lt_of_linked (hg : g.Consistent) (h : g.Linked v w) :
    v < g.nodeCount ∧ w < g.nodeCount := by
  obtain ⟨e, he⟩ := h
  exact hg.lt_of_joins he

/-- What a vertex reaches is a vertex. -/
theorem lt_of_reaches (hg : g.Consistent) (h : g.Reaches s t) (hs : s < g.nodeCount) :
    t < g.nodeCount := by
  obtain ⟨p, hp⟩ := h
  induction hp with
  | nil s => exact hs
  | cons hlink _ ih => exact ih (hg.lt_of_linked hlink).2

/-- There are finitely many walks of a length. -/
theorem finite_walks (hg : g.Consistent) (s t k : ℕ) :
    {p | g.Walk s p t ∧ p.length = k}.Finite := by
  induction k generalizing s with
  | zero =>
      refine (Set.finite_singleton []).subset ?_
      rintro p ⟨-, hlen⟩
      exact List.length_eq_zero_iff.mp hlen
  | succ k ih =>
      refine ((Set.finite_lt_nat g.nodeCount).biUnion fun v _ => (ih v).image (v :: ·)).subset ?_
      rintro (_ | ⟨v, p⟩) ⟨hp, hlen⟩
      · simp at hlen
      · obtain ⟨hsv, hp⟩ := walk_cons_iff.mp hp
        exact Set.mem_biUnion (hg.lt_of_linked hsv).2
          ⟨p, ⟨hp, Nat.succ_injective hlen⟩, rfl⟩

end Consistent

end Betweenness.Graph
