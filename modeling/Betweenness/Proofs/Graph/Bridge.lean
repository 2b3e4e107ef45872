import Betweenness.Proofs.Graph.Reversal

/-!
# Bridges

`g.BridgeAt i` says that the edge from `i` to `i + 1` is the only one between the vertices up to `i`
and those beyond. Every walk from the one side to the other takes this edge, and where edges have a
direction none leads back. So a walk along a row of bridges comes to all vertices in between, in
their order.

## Main results

* `Walk.exists_leaving`: a walk that leaves a set of vertices takes a step out of it.
* `BridgeAt.exists_crossing`: so a walk to the other side of a bridge takes the bridge.
* `sublist_of_bridges`, `sublist_of_bridges_back`: walks along a row of bridges.
* `BridgeAt.not_reaches`: no way back.
-/

namespace Betweenness.Graph

variable {g : Graph} {i u v w length : ℕ} {p : List ℕ}

/-- The edge from `i` to `i + 1` is the only one that joins a vertex up to `i` to one beyond. -/
def BridgeAt (g : Graph) (i : ℕ) : Prop :=
  ∃ e, g.endpoints? e = some (i, i + 1) ∧
    ∀ e' v w, g.endpoints? e' = some (v, w) → (v ≤ i ∧ i < w ∨ w ≤ i ∧ i < v) → e' = e

/-- A walk that leaves a set of vertices takes a step out of it. -/
theorem Walk.exists_leaving {P : ℕ → Prop} (hp : g.Walk u p w) (hu : P u) (hw : ¬ P w) :
    ∃ q a b r, p = q ++ b :: r ∧ P a ∧ ¬ P b ∧ g.Linked a b ∧ g.Walk b r w := by
  induction hp with
  | nil u => exact absurd hu hw
  | @cons u x w p hux hp ih =>
      by_cases hx : P x
      · obtain ⟨q, a, b, r, rfl, hstep⟩ := ih hx hw
        exact ⟨x :: q, a, b, r, rfl, hstep⟩
      · exact ⟨[], u, x, p, rfl, hu, hx, hux, hp⟩

namespace BridgeAt

variable (h : g.BridgeAt i)

include h

/-- What joins the two sides has the ends of the bridge. -/
theorem ends_eq {e : ℕ} (he : g.endpoints? e = some (v, w))
    (hsides : v ≤ i ∧ i < w ∨ w ≤ i ∧ i < v) : v = i ∧ w = i + 1 := by
  obtain ⟨bridge, hbridge, honly⟩ := h
  obtain rfl := honly e v w he hsides
  exact Prod.mk.inj (Option.some.inj (he.symm.trans hbridge))

/-- The only step to the other side is the bridge. -/
theorem eq_of_linked (hlink : g.Linked v w) (hv : v ≤ i) (hw : i < w) : v = i ∧ w = i + 1 := by
  obtain ⟨e, he | ⟨-, he⟩⟩ := hlink
  · exact h.ends_eq he (.inl ⟨hv, hw⟩)
  · obtain ⟨rfl, rfl⟩ := h.ends_eq he (.inr ⟨hv, hw⟩)
    omega

/-- A walk to the other side takes the bridge, and goes on from its end. -/
theorem exists_crossing (hp : g.Walk u p w) (hu : u ≤ i) (hw : i < w) :
    ∃ q r, p = q ++ (i + 1) :: r ∧ g.Walk (i + 1) r w := by
  obtain ⟨q, a, b, r, rfl, ha, hb, hab, hr⟩ :=
    hp.exists_leaving (P := (· ≤ i)) hu (Nat.not_le_of_lt hw)
  obtain ⟨-, rfl⟩ := h.eq_of_linked hab ha (Nat.lt_of_not_le hb)
  exact ⟨q, r, rfl, hr⟩

/-- Where edges have a direction, there is no way back over a bridge. -/
theorem not_reaches (hkind : g.kind = .directed) (hu : i < u) (hw : w ≤ i) : ¬ g.Reaches u w := by
  rintro ⟨p, hp⟩
  obtain ⟨-, a, b, -, -, ha, hb, ⟨e, he⟩, -⟩ :=
    hp.exists_leaving (P := (i < ·)) hu (Nat.not_lt_of_le hw)
  rcases he with he | ⟨hundirected, -⟩
  · obtain ⟨rfl, rfl⟩ := h.ends_eq he (.inr ⟨Nat.le_of_not_lt hb, ha⟩)
    omega
  · exact Kind.noConfusion (hkind.symm.trans hundirected)

end BridgeAt

/-- Along a row of bridges a walk comes to all their ends, in order. -/
theorem sublist_of_bridges (h : ∀ j, i ≤ j → j < i + length → g.BridgeAt j) (hp : g.Walk u p w)
    (hu : u ≤ i) (hw : i + length ≤ w) : (List.range' (i + 1) length).Sublist p := by
  induction length generalizing i u p with
  | zero => exact List.nil_sublist p
  | succ length ih =>
      obtain ⟨q, r, rfl, hr⟩ := (h i (Nat.le_refl i) (by omega)).exists_crossing hp hu (by omega)
      have hrest : (List.range' (i + 1 + 1) length).Sublist r :=
        ih (fun j hj hlt => h j (by omega) (by omega)) hr (Nat.le_refl _) (by omega)
      rw [List.range'_succ]
      exact (hrest.cons_cons (i + 1)).trans (List.sublist_append_right q _)

/-- On the way back it comes to them in the opposite order, as long as edges have no direction. -/
theorem sublist_of_bridges_back (h : ∀ j, i ≤ j → j < i + length → g.BridgeAt j)
    (hkind : g.kind = .undirected) (hp : g.Walk w p u) (hu : u ≤ i) (hw : i + length ≤ w) :
    (List.range' (i + 1) length).reverse.Sublist (w :: p) := by
  obtain ⟨hlist, hback⟩ := hp.reverse hkind
  have hforth := (sublist_of_bridges h hback hu hw).cons u
  rw [← hlist] at hforth
  exact List.reverse_sublist.mp (by rwa [List.reverse_reverse])

end Betweenness.Graph
