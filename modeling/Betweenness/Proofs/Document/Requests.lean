import Betweenness.Document.Request
import Betweenness.Proofs.Json.Fields

/-!
# The texts of a request

A request can be written in many ways. As an object it may name its fields in any order, leave out
those that have their defaults and have members that are no fields; as an array it gives its fields
in their order and may stop where only defaults follow. Blanks may stand between any two tokens, and
characters of texts may be escaped. All of these texts are read as the request
(`requests_read`), and a document that has too much is not read as any.

What a text says is the matter of `Json.Spells`, and which values stand for the fields of a request
that of `Json.StandsFor`; here the fields of both kinds of requests are given as JSON values.

## Main definitions

* `VertexRequest.fields`, `EdgeRequest.fields`: the fields of a request as names and values.
* `VertexRequest.InRange`, `EdgeRequest.InRange`: the numbers of a request are in 64 bits.

## Main results

* `VertexRequest.ofJson?_eq_some_iff`, `EdgeRequest.ofJson?_eq_some_iff`: what the request of a
  document is.
* `requests_read`: what becomes of the texts of requests.
-/

namespace Betweenness

open Json (Spells StandsFor Overfull)

/-! ### Choices of sources -/

namespace SourceSpec

/-- A choice of sources as a JSON value. -/
def toJson : SourceSpec → Json
  | all => .null
  | sample count => .ofNat count
  | list ids => .array (ids.map .ofNat)

/-- The numbers of a choice of sources are in 64 bits. -/
def InRange : SourceSpec → Prop
  | all => True
  | sample count => count < UInt64.size
  | list ids => ∀ id ∈ ids, id < UInt64.size

theorem ofJson?_toJson {spec : SourceSpec} (h : spec.InRange) :
    ofJson? spec.toJson = some spec := by
  cases spec with
  | all => rfl
  | sample count =>
      have hcount := Json.natural?_ofNat h
      change sample <$> (Json.ofNat count).natural? = _
      rw [hcount]
      rfl
  | list ids =>
      have hids := Json.naturals?_ofNat h
      change list <$> (Json.array (ids.map .ofNat)).naturals? = _
      rw [hids]
      rfl

end SourceSpec

/-! ### Requests for vertex scores -/

namespace VertexRequest

/-- The fields of a request, as names and values. -/
def fields (r : VertexRequest) : List (String × Json) :=
  [("k", r.sources.toJson), ("normalized", .bool r.normalized),
    ("weight", .orNull (r.weight.map .ofString)), ("endpoints", .bool r.endpoints),
    ("implementation", .orNull (r.strategy.map .ofString)),
    ("seed", .orNull (r.seed.map .ofNat)), ("result_dtype", .ofString r.precision)]

/-- The numbers of a request are in 64 bits. -/
structure InRange (r : VertexRequest) : Prop where
  sources : r.sources.InRange
  seed : ∀ s ∈ r.seed, s < UInt64.size

/-- Every field is read by itself, and has its default if it is absent. -/
theorem ofJson?_eq_some_iff {document : Json} {r : VertexRequest} :
    ofJson? document = some r ↔ ∃ given, document.fields? fieldNames = some given ∧
      Json.field? given "k" .all SourceSpec.ofJson? = some r.sources ∧
      Json.field? given "normalized" true Json.bool? = some r.normalized ∧
      Json.field? given "weight" none (Json.nullable? Json.string?) = some r.weight ∧
      Json.field? given "endpoints" false Json.bool? = some r.endpoints ∧
      Json.field? given "implementation" none (Json.nullable? Json.string?) = some r.strategy ∧
      Json.field? given "seed" none (Json.nullable? Json.natural?) = some r.seed ∧
      Json.field? given "result_dtype" Precision.double.name Json.string? =
        some r.precision := by
  obtain ⟨sources, normalized, weight, endpoints, strategy, seed, precision⟩ := r
  simp only [ofJson?, Option.bind_eq_bind, Option.bind_eq_some_iff, Option.pure_def,
    Option.some.injEq, VertexRequest.mk.injEq]
  constructor
  · rintro ⟨given, hgiven, _, hk, _, hn, _, hw, _, he, _, hi, _, hs, _, hp, rfl, rfl, rfl, rfl, rfl,
      rfl, rfl⟩
    exact ⟨given, hgiven, hk, hn, hw, he, hi, hs, hp⟩
  · rintro ⟨given, hgiven, hk, hn, hw, he, hi, hs, hp⟩
    exact ⟨given, hgiven, _, hk, _, hn, _, hw, _, he, _, hi, _, hs, _, hp, rfl, rfl, rfl, rfl, rfl,
      rfl, rfl⟩

/-- A document that stands for the fields of a request is read as the request. -/
theorem ofJson?_of_standsFor {r : VertexRequest} (hr : r.InRange) {document : Json}
    (h : StandsFor r.fields ({} : VertexRequest).fields document) :
    ofJson? document = some r := by
  have hnames : fieldNames.Nodup := by decide
  obtain ⟨given, hgiven, h⟩ := h.gives hnames
  refine ofJson?_eq_some_iff.mpr ⟨given, hgiven, ?_, ?_, ?_, ?_, ?_, ?_, ?_⟩
  · exact h.field?_eq_some hnames 0 rfl (SourceSpec.ofJson?_toJson hr.sources) rfl rfl
  · exact h.field?_eq_some hnames 1 rfl rfl rfl rfl
  · exact h.field?_eq_some hnames 2 rfl (Json.nullable?_ofString _) rfl rfl
  · exact h.field?_eq_some hnames 3 rfl rfl rfl rfl
  · exact h.field?_eq_some hnames 4 rfl (Json.nullable?_ofString _) rfl rfl
  · exact h.field?_eq_some hnames 5 rfl (Json.nullable?_ofNat hr.seed) rfl rfl
  · exact h.field?_eq_some hnames 6 rfl rfl rfl rfl

/-- A document that has too much is not read. -/
theorem ofJson?_of_overfull {document : Json} (h : Overfull fieldNames document) :
    ofJson? document = none := by
  rw [Option.eq_none_iff_forall_ne_some]
  intro r hr
  obtain ⟨given, hgiven, hr⟩ := ofJson?_eq_some_iff.mp hr
  obtain ⟨name, hname, hnone⟩ := h.exists_field?_eq_none hgiven
  simp only [fieldNames, List.mem_cons, List.not_mem_nil, or_false] at hname
  rcases hname with rfl | rfl | rfl | rfl | rfl | rfl | rfl <;> simp [hnone] at hr

/-- A text is parsed by reading its value. -/
theorem parse_of_spells {text : String} {document : Json} (h : Spells text document) :
    parse text = match ofJson? document with
      | some r => .ok r
      | none => .error .malformedRequest := by
  rw [parse, Json.read_eq_some_iff.mpr h]
  rfl

end VertexRequest

/-! ### Requests for edge scores -/

namespace EdgeRequest

/-- The fields of a request, as names and values. -/
def fields (r : EdgeRequest) : List (String × Json) :=
  [("k", r.sources.toJson), ("normalized", .bool r.normalized),
    ("weight", .orNull (r.weight.map .ofString)), ("seed", .orNull (r.seed.map .ofNat)),
    ("result_dtype", .ofString r.precision)]

/-- The numbers of a request are in 64 bits. -/
structure InRange (r : EdgeRequest) : Prop where
  sources : r.sources.InRange
  seed : ∀ s ∈ r.seed, s < UInt64.size

/-- Every field is read by itself, and has its default if it is absent. -/
theorem ofJson?_eq_some_iff {document : Json} {r : EdgeRequest} :
    ofJson? document = some r ↔ ∃ given, document.fields? fieldNames = some given ∧
      Json.field? given "k" .all SourceSpec.ofJson? = some r.sources ∧
      Json.field? given "normalized" true Json.bool? = some r.normalized ∧
      Json.field? given "weight" none (Json.nullable? Json.string?) = some r.weight ∧
      Json.field? given "seed" none (Json.nullable? Json.natural?) = some r.seed ∧
      Json.field? given "result_dtype" Precision.double.name Json.string? =
        some r.precision := by
  obtain ⟨sources, normalized, weight, seed, precision⟩ := r
  simp only [ofJson?, Option.bind_eq_bind, Option.bind_eq_some_iff, Option.pure_def,
    Option.some.injEq, EdgeRequest.mk.injEq]
  constructor
  · rintro ⟨given, hgiven, _, hk, _, hn, _, hw, _, hs, _, hp, rfl, rfl, rfl, rfl, rfl⟩
    exact ⟨given, hgiven, hk, hn, hw, hs, hp⟩
  · rintro ⟨given, hgiven, hk, hn, hw, hs, hp⟩
    exact ⟨given, hgiven, _, hk, _, hn, _, hw, _, hs, _, hp, rfl, rfl, rfl, rfl, rfl⟩

/-- A document that stands for the fields of a request is read as the request. -/
theorem ofJson?_of_standsFor {r : EdgeRequest} (hr : r.InRange) {document : Json}
    (h : StandsFor r.fields ({} : EdgeRequest).fields document) : ofJson? document = some r := by
  have hnames : fieldNames.Nodup := by decide
  obtain ⟨given, hgiven, h⟩ := h.gives hnames
  refine ofJson?_eq_some_iff.mpr ⟨given, hgiven, ?_, ?_, ?_, ?_, ?_⟩
  · exact h.field?_eq_some hnames 0 rfl (SourceSpec.ofJson?_toJson hr.sources) rfl rfl
  · exact h.field?_eq_some hnames 1 rfl rfl rfl rfl
  · exact h.field?_eq_some hnames 2 rfl (Json.nullable?_ofString _) rfl rfl
  · exact h.field?_eq_some hnames 3 rfl (Json.nullable?_ofNat hr.seed) rfl rfl
  · exact h.field?_eq_some hnames 4 rfl rfl rfl rfl

/-- A document that has too much is not read. -/
theorem ofJson?_of_overfull {document : Json} (h : Overfull fieldNames document) :
    ofJson? document = none := by
  rw [Option.eq_none_iff_forall_ne_some]
  intro r hr
  obtain ⟨given, hgiven, hr⟩ := ofJson?_eq_some_iff.mp hr
  obtain ⟨name, hname, hnone⟩ := h.exists_field?_eq_none hgiven
  simp only [fieldNames, List.mem_cons, List.not_mem_nil, or_false] at hname
  rcases hname with rfl | rfl | rfl | rfl | rfl <;> simp [hnone] at hr

/-- A text is parsed by reading its value. -/
theorem parse_of_spells {text : String} {document : Json} (h : Spells text document) :
    parse text = match ofJson? document with
      | some r => .ok r
      | none => .error .malformedRequest := by
  rw [parse, Json.read_eq_some_iff.mpr h]
  rfl

end EdgeRequest

/-! ### Both kinds of requests -/

/-- **Every text of a request is read as the request**: any text of any document that stands for its
fields. A document that has too much is refused. -/
theorem requests_read {text : String} {document : Json} (h : Spells text document) :
    (∀ r : VertexRequest, r.InRange → StandsFor r.fields ({} : VertexRequest).fields document →
      VertexRequest.parse text = .ok r) ∧
    (∀ r : EdgeRequest, r.InRange → StandsFor r.fields ({} : EdgeRequest).fields document →
      EdgeRequest.parse text = .ok r) ∧
    (Overfull VertexRequest.fieldNames document →
      ∃ e, VertexRequest.parse text = .error e ∧ e.category = .invalidArgument) ∧
    (Overfull EdgeRequest.fieldNames document →
      ∃ e, EdgeRequest.parse text = .error e ∧ e.category = .invalidArgument) := by
  rw [VertexRequest.parse_of_spells h, EdgeRequest.parse_of_spells h]
  refine ⟨fun r hr hfields => ?_, fun r hr hfields => ?_, fun hoverfull => ?_, fun hoverfull => ?_⟩
  · rw [VertexRequest.ofJson?_of_standsFor hr hfields]
  · rw [EdgeRequest.ofJson?_of_standsFor hr hfields]
  · rw [VertexRequest.ofJson?_of_overfull hoverfull]
    exact ⟨_, rfl, rfl⟩
  · rw [EdgeRequest.ofJson?_of_overfull hoverfull]
    exact ⟨_, rfl, rfl⟩

/-- Fields out of order with blanks and an unknown one among them; an array of the first field only;
a field that is there twice; an array that is too long. -/
theorem requests_read_loosely :
    VertexRequest.parse "\x7b\"seed\" : 7,\n\"x\":[\x7b\x7d,-1.5e3] ,\"k\":[2, 0]\x7d\t" =
      .ok { sources := .list [2, 0], seed := some 7 } ∧
    EdgeRequest.parse "[3]" = .ok { sources := .sample 3 } ∧
    (∃ e, VertexRequest.parse "\x7b\"seed\":1,\"seed\":1\x7d" = .error e ∧
      e.category = .invalidArgument) ∧
    (∃ e, EdgeRequest.parse "[null,true,null,null,\"f32\",0]" = .error e ∧
      e.category = .invalidArgument) := by
  have hloose : Json.read "\x7b\"seed\" : 7,\n\"x\":[\x7b\x7d,-1.5e3] ,\"k\":[2, 0]\x7d\t" =
      some (.object [(some "seed", .ofNat 7),
        (some "x", .array [.object [], .number "-1.5e3"]),
        (some "k", .array [.ofNat 2, .ofNat 0])]) := rfl
  have hshort : Json.read "[3]" = some (.array [.ofNat 3]) := rfl
  have htwice : Json.read "\x7b\"seed\":1,\"seed\":1\x7d" =
      some (.object [(some "seed", .ofNat 1), (some "seed", .ofNat 1)]) := rfl
  have hlong : Json.read "[null,true,null,null,\"f32\",0]" =
      some (.array [.null, .bool true, .null, .null, .ofString "f32", .ofNat 0]) := rfl
  refine ⟨?_, ?_, ?_, ?_⟩
  · refine (requests_read (Json.read_eq_some_iff.mp hloose)).1 _
      ⟨by simp [SourceSpec.InRange, UInt64.size], by simp [UInt64.size]⟩ (.object ?_)
    constructor
    · decide
    · simp [VertexRequest.fields, SourceSpec.toJson, Json.orNull]
    · simp [VertexRequest.fields]
    · simp [VertexRequest.fields]
  · refine (requests_read (Json.read_eq_some_iff.mp hshort)).2.1 _
      ⟨by simp [SourceSpec.InRange, UInt64.size], by simp⟩ (.array ?_)
    constructor
    · simp [EdgeRequest.fields, SourceSpec.toJson]
    · simp [EdgeRequest.fields]
  · exact (requests_read (Json.read_eq_some_iff.mp htwice)).2.2.1
      (.object (.tail _ (.tail _ (.tail _ (.tail _ (.tail _ (.head _)))))) (by decide))
  · exact (requests_read (Json.read_eq_some_iff.mp hlong)).2.2.2 (.array (by decide))

end Betweenness
