import Betweenness.Json.Basic
import Betweenness.Proofs.Json.Printing
import Mathlib.Data.List.Count
import Mathlib.Data.List.Nodup

/-!
# Documents that carry fields

A document with named fields comes in two forms, and each leaves some freedom: an object names its
fields in any order, leaves out what has its default and may have members that nobody asks for; an
array has the fields in their order and stops where only defaults follow. `Carries` and `Lists` say
this of a list of fields, given as names and values, and of the list of the defaults.

Both come to one thing once the names have been attached (`Gives`): each field is there, once and
with its value, or it is not there and has its default. This is all that reading a field asks for
(`Gives.field?_eq_some`).

## Main results

* `StandsFor.gives`: both forms of a document give its fields.
* `Gives.field?_eq_some`: a field that is given is read.
* `Overfull.exists_field?_eq_none`: a document that has too much is not read.
* `natural?_ofNat`, `naturals?_ofNat`: natural numbers are read.
-/

namespace Betweenness.Json

variable {fields defaults : List (String × Json)}

/-! ### The two forms of a document -/

/-- An object has the fields among its members: in any order, none twice, and none missing that does
not have its default. Other members may stand in between. -/
structure Carries (fields defaults : List (String × Json))
    (members : List (Option String × Json)) : Prop where
  /-- Every key has characters. -/
  keys : ∀ m ∈ members, m.1 ≠ none
  /-- A member with the name of a field has its value. -/
  value : ∀ f ∈ fields, ∀ m ∈ members, m.1 = some f.1 → m.2 = f.2
  /-- No field is there twice. -/
  once : ∀ f ∈ fields, (members.map Prod.fst).count (some f.1) ≤ 1
  /-- A field that is not there has its default. -/
  absent : ∀ f ∈ fields, some f.1 ∉ members.map Prod.fst → f ∈ defaults

/-- An array has the values of the fields in their order, and stops where only defaults follow. -/
structure Lists (fields defaults : List (String × Json)) (items : List Json) : Prop where
  /-- The items are the values of the first fields. -/
  values : items <+: fields.map Prod.snd
  /-- A field behind the end has its default. -/
  absent : ∀ f ∈ fields.drop items.length, f ∈ defaults

/-- A document that stands for fields. -/
inductive StandsFor (fields defaults : List (String × Json)) : Json → Prop
  | object {members : List (Option String × Json)} (h : Carries fields defaults members) :
      StandsFor fields defaults (.object members)
  | array {items : List Json} (h : Lists fields defaults items) :
      StandsFor fields defaults (.array items)

/-- A document that has too much: an object with a field twice, or an array with more items than
there are fields. -/
inductive Overfull (names : List String) : Json → Prop
  | object {members : List (Option String × Json)} {name : String} (hname : name ∈ names)
      (h : 2 ≤ (members.map Prod.fst).count (some name)) : Overfull names (.object members)
  | array {items : List Json} (h : names.length < items.length) : Overfull names (.array items)

/-! ### Fields with their names -/

/-- Every field is there once, with its value, or it is not there and has its default. -/
def Gives (fields defaults given : List (String × Json)) : Prop :=
  ∀ f ∈ fields, given.filter (·.1 = f.1) = [f] ∨
    given.filter (·.1 = f.1) = [] ∧ f ∈ defaults

/-- A field that is given is read as its value, if the default in its place is what reading gives
where it is absent. -/
theorem Gives.field?_eq_some {given : List (String × Json)} (h : Gives fields defaults given)
    (hnames : (defaults.map Prod.fst).Nodup) {α : Type} {name : String} {v v₀ : Json} {x d : α}
    {read : Json → Option α} (i : ℕ) (hf : fields[i]? = some (name, v)) (hread : read v = some x)
    (hf₀ : defaults[i]? = some (name, v₀)) (hread₀ : read v₀ = some d) :
    field? given name d read = some x := by
  rcases h _ (List.mem_of_getElem? hf) with hgiven | ⟨hgiven, hdefault⟩
  · rw [field?, hgiven]
    exact hread
  · obtain rfl : v = v₀ := congrArg Prod.snd
      (List.inj_on_of_nodup_map hnames hdefault (List.mem_of_getElem? hf₀) rfl)
    rw [field?, hgiven, ← hread, ← hread₀]

theorem length_filter_name {given : List (String × Json)} {name : String} :
    (given.filter (·.1 = name)).length = (given.map Prod.fst).count name := by
  rw [List.count, List.countP_map, ← List.countP_eq_length_filter]
  rfl

/-- Among different names a field is found by its own. -/
theorem filter_name_of_mem {given : List (String × Json)} (hnames : (given.map Prod.fst).Nodup)
    {f : String × Json} (hf : f ∈ given) : given.filter (·.1 = f.1) = [f] := by
  have hmem : f ∈ given.filter (·.1 = f.1) := List.mem_filter.mpr ⟨hf, decide_eq_true rfl⟩
  have hcount := length_filter_name.trans_le (List.nodup_iff_count_le_one.mp hnames f.1)
  generalize given.filter (·.1 = f.1) = found at hmem hcount
  match found with
  | [] => cases hmem
  | [g] => rw [List.mem_singleton.mp hmem]
  | g :: g' :: rest => simp at hcount

/-- A field that is there twice is not read. -/
theorem field?_eq_none_of_twice {α : Type} {given : List (String × Json)} {name : String} {d : α}
    {read : Json → Option α} (h : 2 ≤ (given.map Prod.fst).count name) :
    field? given name d read = none := by
  rw [← length_filter_name] at h
  unfold field?
  generalize given.filter (·.1 = name) = found at h
  match found with
  | [] => simp at h
  | [g] => simp at h
  | g :: g' :: rest => rfl

/-! ### Objects -/

/-- The fields of an object are its members, if every key has characters. -/
theorem fields?_object_iff {names : List String} {members : List (Option String × Json)}
    {given : List (String × Json)} : fields? names (.object members) = some given ↔
      members = given.map fun f => (some f.1, f.2) := by
  rw [fields?]
  induction members generalizing given with
  | nil => cases given <;> simp
  | cons m members ih =>
      obtain ⟨key, v⟩ := m
      rw [List.mapM_cons]
      constructor
      · intro h
        obtain ⟨f, hf, h⟩ := Option.bind_eq_some_iff.mp h
        obtain ⟨rest, hrest, h⟩ := Option.bind_eq_some_iff.mp h
        obtain ⟨name, rfl, rfl⟩ := Option.map_eq_some_iff.mp hf
        obtain rfl := Option.some.inj h
        rw [ih.mp hrest, List.map_cons]
      · intro h
        obtain ⟨f, rest, rfl, hm, hrest⟩ := List.map_eq_cons_iff.mp h.symm
        cases hm
        rw [ih.mpr hrest.symm]
        rfl

theorem exists_names {members : List (Option String × Json)} (h : ∀ m ∈ members, m.1 ≠ none) :
    ∃ given : List (String × Json), members = given.map fun f => (some f.1, f.2) := by
  induction members with
  | nil => exact ⟨[], rfl⟩
  | cons m members ih =>
      obtain ⟨hm, hmembers⟩ := List.forall_mem_cons.mp h
      obtain ⟨given, rfl⟩ := ih hmembers
      obtain ⟨name, hname⟩ := Option.ne_none_iff_exists'.mp hm
      exact ⟨(name, m.2) :: given, by rw [List.map_cons, ← hname]⟩

theorem count_some_map {given : List (String × Json)} {name : String} :
    ((given.map fun f => ((some f.1, f.2) : Option String × Json)).map Prod.fst).count
      (some name) = (given.map Prod.fst).count name := by
  induction given with
  | nil => rfl
  | cons f given ih =>
      rw [List.map_cons, List.map_cons, List.map_cons, List.count_cons, List.count_cons, ih]
      simp

/-- The fields of an object that carries them are given. -/
theorem Carries.gives {names : List String} {members : List (Option String × Json)}
    (h : Carries fields defaults members) :
    ∃ given, fields? names (.object members) = some given ∧ Gives fields defaults given := by
  obtain ⟨given, rfl⟩ := exists_names h.keys
  refine ⟨given, fields?_object_iff.mpr rfl, fun f hf => ?_⟩
  have hvalue : ∀ g ∈ given.filter (·.1 = f.1), g = f := fun g hg => by
    obtain ⟨hmem, hname⟩ := List.mem_filter.mp hg
    have hname := of_decide_eq_true hname
    exact Prod.ext hname (h.value f hf _ (List.mem_map_of_mem hmem) (congrArg some hname))
  have honce := h.once f hf
  rw [count_some_map, ← length_filter_name] at honce
  generalize hfilter : given.filter (·.1 = f.1) = found at hvalue honce
  match found with
  | [] =>
      refine .inr ⟨rfl, h.absent f hf fun hmem => ?_⟩
      obtain ⟨g, hg, hname⟩ : ∃ g ∈ given, g.1 = f.1 := by simpa using hmem
      have : g ∈ given.filter (·.1 = f.1) := List.mem_filter.mpr ⟨hg, decide_eq_true hname⟩
      simp [hfilter] at this
  | [g] => exact .inl (congrArg (fun g => [g]) (hvalue g List.mem_cons_self))
  | g :: g' :: rest => simp at honce

/-- The members by which fields are written carry them, if the names are different. -/
theorem carries_record (hnames : (fields.map Prod.fst).Nodup) :
    Carries fields defaults (fields.map fun f => (some f.1, f.2)) where
  keys m hm := by
    obtain ⟨f, -, rfl⟩ := List.mem_map.mp hm
    exact Option.some_ne_none f.1
  value f hf m hm hname := by
    obtain ⟨g, hg, rfl⟩ := List.mem_map.mp hm
    exact congrArg Prod.snd (List.inj_on_of_nodup_map hnames hg hf (Option.some.inj hname))
  once f hf := by
    rw [count_some_map]
    exact List.nodup_iff_count_le_one.mp hnames f.1
  absent f hf hmissing := absurd (by simpa using ⟨f.2, hf⟩) hmissing

/-! ### Arrays -/

theorem zip_take (fields : List (String × Json)) (k : ℕ) :
    (fields.map Prod.fst).zip ((fields.take k).map Prod.snd) = fields.take k := by
  induction fields generalizing k with
  | nil => rw [List.take_nil]; rfl
  | cons f fields ih =>
      cases k with
      | zero => rfl
      | succ k => exact congrArg (f :: ·) (ih k)

/-- The fields of an array that lists them are given, if the names are different. -/
theorem Lists.gives {items : List Json} (h : Lists fields defaults items)
    (hnames : (fields.map Prod.fst).Nodup) : ∃ given,
      fields? (fields.map Prod.fst) (.array items) = some given ∧ Gives fields defaults given := by
  obtain ⟨k, rfl, hk⟩ : ∃ k, items = (fields.take k).map Prod.snd ∧ k = items.length := by
    refine ⟨items.length, ?_, rfl⟩
    rw [List.map_take]
    exact List.prefix_iff_eq_take.mp h.values
  have habsent := h.absent
  rw [← hk] at habsent
  refine ⟨fields.take k, ?_, fun f hf => ?_⟩
  · have hlength : ((fields.take k).map Prod.snd).length ≤ (fields.map Prod.fst).length := by
      rw [List.length_map, List.length_map]
      exact List.length_take_le' k fields
    rw [fields?, if_pos hlength, zip_take]
  · by_cases hmem : f ∈ fields.take k
    · refine .inl (filter_name_of_mem ?_ hmem)
      rw [List.map_take]
      exact hnames.sublist (List.take_sublist _ _)
    · refine .inr ⟨List.filter_eq_nil_iff.mpr fun g hg hname => hmem ?_, ?_⟩
      · have hgf := List.inj_on_of_nodup_map hnames (List.mem_of_mem_take hg) hf
          (of_decide_eq_true hname)
        exact hgf ▸ hg
      · rw [← List.take_append_drop k fields] at hf
        exact habsent f ((List.mem_append.mp hf).resolve_left hmem)

/-! ### Documents -/

/-- The fields of a document that stands for them are given, if the names are different. -/
theorem StandsFor.gives {v : Json} (h : StandsFor fields defaults v)
    (hnames : (fields.map Prod.fst).Nodup) :
    ∃ given, v.fields? (fields.map Prod.fst) = some given ∧ Gives fields defaults given := by
  cases h with
  | object h => exact h.gives
  | array h => exact h.gives hnames

/-- Of a document that has too much some field is not read, whatever its type. -/
theorem Overfull.exists_field?_eq_none {names : List String} {v : Json} (h : Overfull names v)
    {given : List (String × Json)} (hgiven : v.fields? names = some given) :
    ∃ name ∈ names, ∀ {α : Type} (d : α) (read : Json → Option α),
      field? given name d read = none := by
  cases h with
  | @object members name hname h =>
      obtain rfl := fields?_object_iff.mp hgiven
      rw [count_some_map] at h
      exact ⟨name, hname, fun d read => field?_eq_none_of_twice h⟩
  | array h =>
      rw [fields?, if_neg (Nat.not_le.mpr h)] at hgiven
      cases hgiven

/-! ### Values of fields -/

/-- Natural numbers in 64 bits are read. -/
theorem natural?_ofNat {n : ℕ} (h : n < UInt64.size) : natural? (ofNat n) = some n := by
  have hdigits : (toString n).toList = Nat.toDigits 10 n := by
    rw [Nat.toString_eq_ofList_toDigits, String.toList_ofList]
  have hall : (toString n).toList.all Char.isDigit = true :=
    hdigits ▸ List.all_eq_true.mpr (isDigits_toDigits n).2
  have hvalue : Nat.ofDigitChars 10 (toString n).toList 0 = n :=
    hdigits ▸ Nat.ofDigitChars_ten_toDigits
  exact (if_pos ⟨hall, hvalue.trans_lt h⟩).trans (congrArg some hvalue)

/-- So are lists of them. -/
theorem naturals?_ofNat {ns : List ℕ} (h : ∀ n ∈ ns, n < UInt64.size) :
    naturals? (.array (ns.map ofNat)) = some ns := by
  rw [naturals?]
  induction ns with
  | nil => rfl
  | cons n ns ih =>
      obtain ⟨hn, hns⟩ := List.forall_mem_cons.mp h
      simp [natural?_ofNat hn, ih hns]

/-- A value that may be missing is read, if no value is written like a missing one. -/
theorem nullable?_orNull {α : Type} {read : Json → Option α} {write : α → Json} {x : Option α}
    (hread : ∀ y ∈ x, read (write y) = some y) (hnull : ∀ y, write y ≠ .null) :
    nullable? read (.orNull (x.map write)) = some x := by
  cases x with
  | none => rfl
  | some y =>
      rw [Option.map_some, orNull]
      have : ∀ v, v ≠ .null → nullable? read v = some <$> read v := by
        intro v hv
        cases v <;> first | rfl | exact absurd rfl hv
      rw [this _ (hnull y), hread y rfl]
      rfl

/-- A text that may be missing is read. -/
theorem nullable?_ofString (s : Option String) :
    nullable? string? (.orNull (s.map .ofString)) = some s :=
  nullable?_orNull (fun _ _ => rfl) nofun

/-- So is a number. -/
theorem nullable?_ofNat {n : Option ℕ} (h : ∀ m ∈ n, m < UInt64.size) :
    nullable? natural? (.orNull (n.map .ofNat)) = some n :=
  nullable?_orNull (fun m hm => natural?_ofNat (h m hm)) nofun

end Betweenness.Json
