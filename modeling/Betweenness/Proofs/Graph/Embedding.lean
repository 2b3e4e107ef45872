import Betweenness.Proofs.Graph.PathShare

/-!
# Graphs within graphs

`g.Embeds φ g'` says that a renaming `φ` of vertices takes the graph `g` into `g'`, so that the
links of `g'` are those of `g` under their new names. Whatever vertices `g'` has besides are linked
to nothing. Numbering vertices in another order, giving indices to ids that are never used and
loading edges in both directions all lead to graphs that are related so.

Only links are carried over, as paths do not show what edges they take. How much a source depends on
an edge is therefore put together from its dependencies on the one or two steps that the edge allows
(`stepShare`).

The renaming is one-to-one on all numbers, not on vertices alone, so that lists of vertices are
renamed one-to-one as well.

## Main results

* `Embeds.shortestPaths_eq`: the shortest paths between renamed vertices are the renamed ones.
* `Embeds.vertexShare_eq`, `Embeds.stepShare_eq`: shares do not depend on names.
* `edgeShare_eq_linkShare`: the share of an edge, from those of its steps.
* `Embeds.vertexSum_eq`, `Embeds.edgeSum_eq`: so sums over sources do not depend on names either,
  nor on sources that are linked to nothing.
-/

namespace Betweenness.Graph

/-! ### Steps and edges -/

/-- The share of shortest paths from `s` that take the step from `v` to `w`, summed over their
ends. -/
noncomputable def stepShare (g : Graph) (s v w : ℕ) : ℚ :=
  ∑ t ∈ g.reached s \ {s},
    ({p ∈ g.shortestPaths s t | [v, w] <:+: s :: p}.ncard : ℚ) / g.pathCount s t

/-- The share of shortest paths from `s` that take an edge which leads from `v` to `w`: in this
direction and, if edges have none, in the opposite one. -/
noncomputable def linkShare (g : Graph) (s v w : ℕ) : ℚ :=
  g.stepShare s v w + if g.kind = .undirected then g.stepShare s w v else 0

section Steps

variable {g : Graph} {s t v w e : ℕ}

/-- No shortest path takes a step that does not lead away from the source. -/
theorem ncard_step_eq_zero (h : ¬ g.StepsAway s v w) :
    {p ∈ g.shortestPaths s t | [v, w] <:+: s :: p}.ncard = 0 := by
  have hempty : {p ∈ g.shortestPaths s t | [v, w] <:+: s :: p} = ∅ :=
    Set.eq_empty_iff_forall_notMem.mpr fun p ⟨hp, hstep⟩ =>
      h (split_step_of_mem_shortestPaths hp hstep).1
  rw [hempty, Set.ncard_empty]

/-- A step leads away from the source, or towards it, or neither. -/
theorem StepsAway.not_back (h : g.StepsAway s v w) : ¬ g.StepsAway s w v := by
  intro hback
  have hdist := h.2.2
  have hdist' := hback.2.2
  omega

/-- The shortest paths that take an edge take it in one of its directions. -/
theorem pathCountOver_eq_add (he : g.Joins e v w) : g.pathCountOver s t e =
    {p ∈ g.shortestPaths s t | [v, w] <:+: s :: p}.ncard +
      if g.kind = .undirected then {p ∈ g.shortestPaths s t | [w, v] <:+: s :: p}.ncard
      else 0 := by
  by_cases hvw : g.StepsAway s v w
  · rw [pathCountOver_eq he hvw, ncard_over hvw, ncard_step_eq_zero hvw.not_back, ite_self,
      Nat.add_zero]
  · rw [ncard_step_eq_zero hvw, Nat.zero_add]
    by_cases hwv : g.kind = .undirected ∧ g.StepsAway s w v
    · obtain ⟨hkind, hwv⟩ := hwv
      rw [if_pos hkind, pathCountOver_eq (he.symm hkind) hwv, ncard_over hwv]
    · have hnone : ∀ a c, g.Joins e a c → ¬ g.StepsAway s a c := by
        intro a c hjoins haway
        rcases hjoins.eq_or_swap he with heq | ⟨hkind, heq⟩
        · obtain ⟨rfl, rfl⟩ := Prod.mk.inj heq
          exact hvw haway
        · obtain ⟨rfl, rfl⟩ := Prod.mk.inj heq
          exact hwv ⟨hkind, haway⟩
      rw [pathCountOver_eq_zero hnone]
      split
      · rename_i hkind
        exact (ncard_step_eq_zero fun haway => hwv ⟨hkind, haway⟩).symm
      · rfl

/-- The dependency on an edge is that on its steps. -/
theorem edgeShare_eq_linkShare (he : g.Joins e v w) : g.edgeShare s e = g.linkShare s v w := by
  have hterm : ∀ t, (g.pathCountOver s t e : ℚ) / g.pathCount s t =
      ({p ∈ g.shortestPaths s t | [v, w] <:+: s :: p}.ncard : ℚ) / g.pathCount s t +
        if g.kind = .undirected then
          ({p ∈ g.shortestPaths s t | [w, v] <:+: s :: p}.ncard : ℚ) / g.pathCount s t
        else 0 := by
    intro t
    rw [pathCountOver_eq_add he, Nat.cast_add, add_div]
    split
    · rfl
    · rw [Nat.cast_zero, zero_div]
  rw [edgeShare, linkShare, Finset.sum_congr rfl fun t _ => hterm t, Finset.sum_add_distrib]
  split
  · rfl
  · rw [Finset.sum_const_zero]
    rfl

end Steps

/-! ### Renamed vertices -/

/-- A renaming of vertices takes a graph into another: the links of the second are those of the
first. -/
structure Embeds (g : Graph) (φ : ℕ → ℕ) (g' : Graph) : Prop where
  /-- Different numbers have different names. -/
  injective : Function.Injective φ
  /-- Vertices become vertices, and nothing else does. -/
  lt_iff : ∀ v, φ v < g'.nodeCount ↔ v < g.nodeCount
  /-- The links are those between renamed vertices. -/
  linked_iff : ∀ x y, g'.Linked x y ↔ ∃ v w, φ v = x ∧ φ w = y ∧ g.Linked v w

namespace Embeds

variable {g g' : Graph} {φ : ℕ → ℕ} {s t v w x y : ℕ} {p q : List ℕ} (h : g.Embeds φ g')

include h

theorem linked_map_iff : g'.Linked (φ v) (φ w) ↔ g.Linked v w := by
  rw [h.linked_iff]
  constructor
  · rintro ⟨v', w', hv, hw, hlink⟩
    rwa [h.injective hv, h.injective hw] at hlink
  · intro hlink
    exact ⟨v, w, rfl, rfl, hlink⟩

/-- The walks from a renamed vertex are the renamed walks. -/
theorem walk_iff : g'.Walk (φ s) q x ↔ ∃ p t, p.map φ = q ∧ φ t = x ∧ g.Walk s p t := by
  induction q generalizing s with
  | nil =>
      constructor
      · intro hwalk
        exact ⟨[], s, rfl, walk_nil_iff.mp hwalk, .nil s⟩
      · rintro ⟨p, t, hp, rfl, hwalk⟩
        obtain rfl := List.map_eq_nil_iff.mp hp
        obtain rfl := walk_nil_iff.mp hwalk
        exact .nil _
  | cons y q ih =>
      rw [walk_cons_iff, h.linked_iff]
      constructor
      · rintro ⟨⟨v, w, hv, rfl, hlink⟩, hwalk⟩
        obtain rfl := h.injective hv
        obtain ⟨p, t, rfl, rfl, hp⟩ := ih.mp hwalk
        exact ⟨w :: p, t, rfl, rfl, .cons hlink hp⟩
      · rintro ⟨p, t, hp, rfl, hwalk⟩
        obtain ⟨w, r, rfl, rfl, rfl⟩ := List.map_eq_cons_iff.mp hp
        obtain ⟨hlink, hwalk⟩ := walk_cons_iff.mp hwalk
        exact ⟨⟨s, w, rfl, rfl, hlink⟩, ih.mpr ⟨r, t, rfl, rfl, hwalk⟩⟩

theorem walk_map_iff : g'.Walk (φ s) (p.map φ) (φ t) ↔ g.Walk s p t := by
  rw [h.walk_iff]
  constructor
  · rintro ⟨q, u, hq, hu, hwalk⟩
    rwa [List.map_injective_iff.mpr h.injective hq, h.injective hu] at hwalk
  · intro hwalk
    exact ⟨p, t, rfl, rfl, hwalk⟩

/-- What a renamed vertex reaches are the renamed vertices that it reaches. -/
theorem reaches_iff : g'.Reaches (φ s) x ↔ ∃ t, φ t = x ∧ g.Reaches s t := by
  constructor
  · rintro ⟨q, hq⟩
    obtain ⟨p, t, -, ht, hp⟩ := h.walk_iff.mp hq
    exact ⟨t, ht, p, hp⟩
  · rintro ⟨t, rfl, p, hp⟩
    exact ⟨p.map φ, h.walk_map_iff.mpr hp⟩

theorem reached_eq : g'.reached (φ s) = (g.reached s).image φ := by
  ext x
  simp only [mem_reached, Finset.mem_image, h.reaches_iff]
  constructor
  · rintro ⟨hx, t, rfl, ht⟩
    exact ⟨t, ⟨(h.lt_iff t).mp hx, ht⟩, rfl⟩
  · rintro ⟨t, ⟨hlt, ht⟩, rfl⟩
    exact ⟨(h.lt_iff t).mpr hlt, t, rfl, ht⟩

/-- The shortest paths between renamed vertices are the renamed ones. -/
theorem shortestPaths_eq :
    g'.shortestPaths (φ s) (φ t) = List.map φ '' g.shortestPaths s t := by
  ext q
  constructor
  · rintro ⟨hq, hleast⟩
    obtain ⟨p, u, rfl, hu, hp⟩ := h.walk_iff.mp hq
    obtain rfl := h.injective hu
    refine ⟨p, ⟨hp, fun r hr => ?_⟩, rfl⟩
    simpa using hleast _ (h.walk_map_iff.mpr hr)
  · rintro ⟨p, ⟨hp, hleast⟩, rfl⟩
    refine ⟨h.walk_map_iff.mpr hp, fun q hq => ?_⟩
    obtain ⟨r, u, rfl, hu, hr⟩ := h.walk_iff.mp hq
    obtain rfl := h.injective hu
    simpa using hleast r hr

/-- As many shortest paths have a property that does not depend on names. -/
theorem ncard_eq {P Q : List ℕ → Prop} (hPQ : ∀ p, Q (p.map φ) ↔ P p) :
    {q ∈ g'.shortestPaths (φ s) (φ t) | Q q}.ncard = {p ∈ g.shortestPaths s t | P p}.ncard := by
  have himage : {q ∈ g'.shortestPaths (φ s) (φ t) | Q q} =
      List.map φ '' {p ∈ g.shortestPaths s t | P p} := by
    rw [h.shortestPaths_eq]
    ext q
    constructor
    · rintro ⟨⟨p, hp, rfl⟩, hq⟩
      exact ⟨p, ⟨hp, (hPQ p).mp hq⟩, rfl⟩
    · rintro ⟨p, ⟨hp, hP⟩, rfl⟩
      exact ⟨⟨p, hp, rfl⟩, (hPQ p).mpr hP⟩
  rw [himage, Set.ncard_image_of_injective _ (List.map_injective_iff.mpr h.injective)]

theorem pathCount_eq : g'.pathCount (φ s) (φ t) = g.pathCount s t := by
  rw [pathCount, h.shortestPaths_eq,
    Set.ncard_image_of_injective _ (List.map_injective_iff.mpr h.injective), pathCount]

/-- Shares of shortest paths that have a property, summed over ends, do not depend on names. -/
theorem sum_share_eq {P Q : ℕ → List ℕ → Prop} (omitted : Finset ℕ)
    (hPQ : ∀ t p, Q (φ t) (p.map φ) ↔ P t p) :
    ∑ t ∈ g'.reached (φ s) \ omitted.image φ,
        ({q ∈ g'.shortestPaths (φ s) t | Q t q}.ncard : ℚ) / g'.pathCount (φ s) t =
      ∑ t ∈ g.reached s \ omitted,
        ({p ∈ g.shortestPaths s t | P t p}.ncard : ℚ) / g.pathCount s t := by
  rw [h.reached_eq, ← Finset.image_sdiff _ _ h.injective, Finset.sum_image h.injective.injOn]
  refine Finset.sum_congr rfl fun t _ => ?_
  rw [h.ncard_eq (hPQ t), h.pathCount_eq]

/-- The dependency on a vertex does not depend on names. -/
theorem vertexShare_eq : g'.vertexShare (φ s) (φ v) = g.vertexShare s v := by
  have hshare := h.sum_share_eq (s := s) (P := fun _ p => v ∈ p.dropLast)
    (Q := fun _ q => φ v ∈ q.dropLast) {s, v} fun _ p => by
      rw [← List.map_dropLast, List.mem_map_of_injective h.injective]
  rwa [Finset.image_insert, Finset.image_singleton] at hshare

/-- The dependency on a step does not depend on names. -/
theorem stepShare_eq : g'.stepShare (φ s) (φ v) (φ w) = g.stepShare s v w := by
  have hstep : ∀ p, [φ v, φ w] <:+: φ s :: p.map φ ↔ [v, w] <:+: s :: p := by
    intro p
    constructor
    · intro hinfix
      have hmap : [v, w].map φ <:+: (s :: p).map φ := hinfix
      obtain ⟨l, hl, heq⟩ := List.infix_map_iff.mp hmap
      rwa [List.map_injective_iff.mpr h.injective heq]
    · intro hinfix
      exact hinfix.map φ
  have hshare := h.sum_share_eq (s := s) (P := fun _ p => [v, w] <:+: s :: p)
    (Q := fun _ q => [φ v, φ w] <:+: φ s :: q) {s} fun _ p => hstep p
  rwa [Finset.image_singleton] at hshare

theorem linkShare_eq (hkind : g'.kind = g.kind) :
    g'.linkShare (φ s) (φ v) (φ w) = g.linkShare s v w := by
  rw [linkShare, linkShare, hkind, h.stepShare_eq, h.stepShare_eq]

/-! ### Edges -/

/-- Edges that lead between renamed vertices correspond to the edges between these vertices. -/
theorem edge_eq_iff {e₁ e₂ e₁' e₂' v₁ w₁ v₂ w₂ : ℕ} (hg : g.Consistent) (hg' : g'.Consistent)
    (hkind : g'.kind = g.kind) (h₁ : g.Joins e₁ v₁ w₁) (h₁' : g'.Joins e₁' (φ v₁) (φ w₁))
    (h₂ : g.Joins e₂ v₂ w₂) (h₂' : g'.Joins e₂' (φ v₂) (φ w₂)) : e₁ = e₂ ↔ e₁' = e₂' := by
  constructor
  · rintro rfl
    rcases h₁.eq_or_swap h₂ with heq | ⟨hundirected, heq⟩
    · obtain ⟨rfl, rfl⟩ := Prod.mk.inj heq
      exact hg'.edge_unique _ _ _ _ h₁' h₂'
    · obtain ⟨rfl, rfl⟩ := Prod.mk.inj heq
      exact hg'.edge_unique _ _ _ _ h₁' (h₂'.symm (hkind.trans hundirected))
  · rintro rfl
    rcases h₁'.eq_or_swap h₂' with heq | ⟨hundirected, heq⟩
    · obtain ⟨hv, hw⟩ := Prod.mk.inj heq
      obtain rfl := h.injective hv
      obtain rfl := h.injective hw
      exact hg.edge_unique _ _ _ _ h₁ h₂
    · obtain ⟨hv, hw⟩ := Prod.mk.inj heq
      obtain rfl := h.injective hv
      obtain rfl := h.injective hw
      exact hg.edge_unique _ _ _ _ h₁ (h₂.symm (hkind.symm.trans hundirected))

/-- There are as many edges in the one graph as in the other. -/
theorem edgeCount_eq (hg : g.Consistent) (hg' : g'.Consistent) (hkind : g'.kind = g.kind) :
    g'.edgeCount = g.edgeCount := by
  have htotal : ∀ e < g.edgeCount, ∃ e' v w, g.Joins e v w ∧ g'.Joins e' (φ v) (φ w) := by
    intro e he
    obtain ⟨v, w, hvw⟩ := exists_joins he
    obtain ⟨e', he'⟩ := h.linked_map_iff.mpr ⟨e, hvw⟩
    exact ⟨e', v, w, hvw, he'⟩
  have hback : ∀ e' < g'.edgeCount, ∃ e v w, g.Joins e v w ∧ g'.Joins e' (φ v) (φ w) := by
    intro e' he'
    obtain ⟨x, y, hxy⟩ := exists_joins he'
    obtain ⟨v, w, rfl, rfl, e, he⟩ := (h.linked_iff x y).mp ⟨e', hxy⟩
    exact ⟨e, v, w, he, hxy⟩
  -- Edges that correspond lead between vertices that do, so neither edge has two partners.
  choose! target v w hjoins htarget using htotal
  rw [← Finset.card_range g.edgeCount, ← Finset.card_range g'.edgeCount]
  refine (Finset.card_bij (fun e _ => target e) ?maps ?injective ?onto).symm
  case maps =>
    intro e he
    exact Finset.mem_range.mpr (htarget e (Finset.mem_range.mp he)).lt_edgeCount
  case injective =>
    intro e₁ h₁ e₂ h₂ heq
    rw [Finset.mem_range] at h₁ h₂
    exact (h.edge_eq_iff hg hg' hkind (hjoins e₁ h₁) (htarget e₁ h₁) (hjoins e₂ h₂)
      (htarget e₂ h₂)).mpr heq
  case onto =>
    intro e' he'
    obtain ⟨e, v', w', he, hxy⟩ := hback e' (Finset.mem_range.mp he')
    have hlt := he.lt_edgeCount
    exact ⟨e, Finset.mem_range.mpr hlt, (h.edge_eq_iff hg hg' hkind (hjoins e hlt) (htarget e hlt)
      he hxy).mp rfl⟩

/-! ### Vertices that are no renamed ones -/

theorem mem_range_of_linked (hlink : g'.Linked x y) : x ∈ Set.range φ ∧ y ∈ Set.range φ := by
  obtain ⟨v, w, rfl, rfl, -⟩ := (h.linked_iff x y).mp hlink
  exact ⟨⟨v, rfl⟩, ⟨w, rfl⟩⟩

/-- Only renamed vertices reach others. -/
theorem eq_of_reaches (hx : x ∉ Set.range φ) (hreach : g'.Reaches x y) : x = y := by
  obtain ⟨p, hp⟩ := hreach
  cases hp with
  | nil => rfl
  | cons hlink _ => exact absurd (h.mem_range_of_linked hlink).1 hx

/-- Only renamed vertices are reached from others. -/
theorem eq_of_reaches' (hy : y ∉ Set.range φ) (hreach : g'.Reaches x y) : x = y := by
  obtain ⟨p, hp⟩ := hreach
  by_cases hnil : p = []
  · subst hnil
    exact walk_nil_iff.mp hp
  · obtain ⟨q, u, -, -, hlink⟩ := hp.exists_snoc hnil
    exact absurd (h.mem_range_of_linked hlink).2 hy

/-- What is no renamed vertex depends on no other vertex. -/
theorem vertexShare_eq_zero (hx : x ∉ Set.range φ) (hne : y ≠ x) : g'.vertexShare x y = 0 :=
  Graph.vertexShare_eq_zero fun hreach => hne (h.eq_of_reaches hx hreach).symm

/-- No source but itself depends on what is no renamed vertex. -/
theorem vertexShare_eq_zero' (hy : y ∉ Set.range φ) (hne : y ≠ x) : g'.vertexShare x y = 0 :=
  Graph.vertexShare_eq_zero fun hreach => hne (h.eq_of_reaches' hy hreach).symm

/-- What is no renamed vertex depends on no edge. -/
theorem edgeShare_eq_zero {e : ℕ} (hx : x ∉ Set.range φ) : g'.edgeShare x e = 0 := by
  refine Graph.edgeShare_eq_zero fun v w _ haway => ?_
  obtain rfl := h.eq_of_reaches hx haway.2.1
  exact hx (h.mem_range_of_linked haway.1).1

end Embeds

/-! ### Sums over sources -/

/-- Sources that are the renamed ones and others that are no renamed vertices, in any order. -/
def CarriesSources (φ : ℕ → ℕ) (sources sources' : List ℕ) : Prop :=
  ∃ others, sources'.Perm (sources.map φ ++ others) ∧ ∀ s ∈ others, s ∉ Set.range φ

section Sums

variable {g g' : Graph} {φ : ℕ → ℕ} {sources sources' : List ℕ}

/-- A sum over such sources is the sum over the sources that are renamed, if others contribute
nothing. -/
theorem CarriesSources.sum_eq (h : CarriesSources φ sources sources') {F F' : ℕ → ℚ}
    (hF : ∀ s, F' (φ s) = F s) (hother : ∀ s ∉ Set.range φ, F' s = 0) :
    (sources'.map F').sum = (sources.map F).sum := by
  obtain ⟨others, hperm, hothers⟩ := h
  have hzero : (others.map F').sum = 0 := by
    refine List.sum_eq_zero fun x hx => ?_
    obtain ⟨s, hs, rfl⟩ := List.mem_map.mp hx
    exact hother s (hothers s hs)
  rw [(hperm.map F').sum_eq, List.map_append, List.sum_append, hzero, add_zero, List.map_map]
  exact congrArg List.sum (List.map_congr_left fun s _ => hF s)

variable (h : g.Embeds φ g')

include h

theorem Embeds.vertexSum_eq (hsources : CarriesSources φ sources sources') (v : ℕ) :
    g'.vertexSum sources' (φ v) = g.vertexSum sources v := by
  refine hsources.sum_eq (fun s => ?_) fun s hs => ?_
  · exact if_congr h.injective.eq_iff rfl h.vertexShare_eq
  · have hne : φ v ≠ s := fun heq => hs ⟨v, heq⟩
    rw [if_neg hne, h.vertexShare_eq_zero hs hne]

/-- No source depends on what is no renamed vertex. -/
theorem Embeds.vertexSum_eq_zero {x : ℕ} (hx : x ∉ Set.range φ) (sources : List ℕ) :
    g'.vertexSum sources x = 0 := by
  refine List.sum_eq_zero fun y hy => ?_
  obtain ⟨s, -, rfl⟩ := List.mem_map.mp hy
  split
  · rfl
  · rename_i hne
    exact h.vertexShare_eq_zero' hx hne

theorem Embeds.edgeSum_eq (hkind : g'.kind = g.kind)
    (hsources : CarriesSources φ sources sources') {e e' v w : ℕ} (he : g.Joins e v w)
    (he' : g'.Joins e' (φ v) (φ w)) : g'.edgeSum sources' e' = g.edgeSum sources e := by
  refine hsources.sum_eq (fun s => ?_) fun s hs => h.edgeShare_eq_zero hs
  rw [edgeShare_eq_linkShare he', edgeShare_eq_linkShare he, h.linkShare_eq hkind]

/-- Every vertex of the one graph becomes a source of the other if all vertices are sources. -/
theorem Embeds.carriesSources_range :
    CarriesSources φ (List.range g.nodeCount) (List.range g'.nodeCount) := by
  classical
  refine ⟨(List.range g'.nodeCount).filter (· ∉ Set.range φ), ?_, fun s hs => ?_⟩
  · have hmap : ((List.range g.nodeCount).map φ).Perm
        ((List.range g'.nodeCount).filter (· ∈ Set.range φ)) := by
      refine (List.perm_ext_iff_of_nodup (List.nodup_range.map h.injective)
        (List.nodup_range.filter _)).mpr fun x => ?_
      simp only [List.mem_map, List.mem_range, List.mem_filter, decide_eq_true_eq, Set.mem_range]
      constructor
      · rintro ⟨v, hv, rfl⟩
        exact ⟨(h.lt_iff v).mpr hv, v, rfl⟩
      · rintro ⟨hx, v, rfl⟩
        exact ⟨v, (h.lt_iff v).mp hx, rfl⟩
    have hsplit := List.filter_append_perm (· ∈ Set.range φ) (List.range g'.nodeCount)
    simp only [← decide_not] at hsplit
    exact hsplit.symm.trans (hmap.symm.append_right _)
  · simpa using (List.mem_filter.mp hs).2

end Sums

end Betweenness.Graph
