import Betweenness.Document.Settings
import Betweenness.Proofs.Json.Fields

/-!
# Settings that are written read back

Settings are written as an object of two numbers, the second of which may be `null`. Numbers in 64
bits read back as they are, so that settings are read as they were before anything is checked.
Whether they are in range is up to validation, whose errors are passed on.

## Main results

* `Settings.ofJson?_eq_some_iff`: what the settings of a document are.
* `Settings.parse_write`: settings that are written read back, or are refused for what is wrong
  with them.
-/

namespace Betweenness.Settings

/-- The fields of settings, as names and values. -/
def fields (s : Settings) : List (String × Json) :=
  [("max_memory_mb", .ofNat s.memoryLimit), ("num_threads", .orNull (s.threads.map .ofNat))]

/-- Every field is read by itself, and has its default if it is absent. -/
theorem ofJson?_eq_some_iff {document : Json} {s : Settings} : ofJson? document = some s ↔
    ∃ given, document.fields? fieldNames = some given ∧
      Json.field? given "max_memory_mb" 4096 Json.natural? = some s.memoryLimit ∧
      Json.field? given "num_threads" none (Json.nullable? Json.natural?) = some s.threads := by
  obtain ⟨memoryLimit, threads⟩ := s
  simp only [ofJson?, Option.bind_eq_bind, Option.bind_eq_some_iff, Option.pure_def,
    Option.some.injEq, Settings.mk.injEq]
  constructor
  · rintro ⟨given, hgiven, _, hmemory, _, hthreads, rfl, rfl⟩
    exact ⟨given, hgiven, hmemory, hthreads⟩
  · rintro ⟨given, hgiven, hmemory, hthreads⟩
    exact ⟨given, hgiven, _, hmemory, _, hthreads, rfl, rfl⟩

variable {s : Settings}

theorem hasNumerals_toJson (s : Settings) : s.toJson.HasNumerals := by
  refine .object fun m hm => ?_
  simp only [List.map_cons, List.map_nil, List.mem_cons, List.not_mem_nil, or_false] at hm
  rcases hm with rfl | rfl
  · exact .number (Json.isNumeral_toString _)
  · cases s.threads with
    | none => exact .null
    | some t => exact .number (Json.isNumeral_toString t)

/-- The value that settings are written as stands for them. -/
theorem ofJson?_toJson (hmemory : s.memoryLimit < UInt64.size)
    (hthreads : ∀ t ∈ s.threads, t < UInt64.size) : ofJson? s.toJson = some s := by
  have hnames : fieldNames.Nodup := by decide
  have hdocument : Json.StandsFor s.fields ({} : Settings).fields s.toJson :=
    .object (Json.carries_record hnames)
  obtain ⟨given, hgiven, h⟩ := hdocument.gives hnames
  refine ofJson?_eq_some_iff.mpr ⟨given, hgiven, ?_, ?_⟩
  · exact h.field?_eq_some hnames 0 rfl (Json.natural?_ofNat hmemory) rfl rfl
  · exact h.field?_eq_some hnames 1 rfl (Json.nullable?_ofNat hthreads) rfl rfl

/-- Settings are written as an object of both fields, with `null` for no number of threads. -/
theorem write_eq (s : Settings) : s.write =
    "\x7b\"max_memory_mb\":" ++ toString s.memoryLimit ++ ",\"num_threads\":" ++
      (match s.threads with | none => "null" | some t => toString t) ++ "\x7d" := by
  have hmemory : Json.quoted (some "max_memory_mb") = "\"max_memory_mb\"" := by rfl
  have hthreads : Json.quoted (some "num_threads") = "\"num_threads\"" := by rfl
  have hvalue : (Json.orNull (s.threads.map .ofNat)).write =
      match s.threads with | none => "null" | some t => toString t := by
    cases s.threads <;> rfl
  rw [write, toJson, Json.record, Json.write_object, ← hvalue, ← String.toList_inj]
  simp [hmemory, hthreads, Json.commaSeparated, Json.ofNat, Json.write]

/-- What is written is read as the settings, which are then validated. -/
theorem parse_write_eq (hmemory : s.memoryLimit < UInt64.size)
    (hthreads : ∀ t ∈ s.threads, t < UInt64.size) :
    parse s.write = do s.validate; return s := by
  have hread : Json.read s.write = some s.toJson := Json.read_write (hasNumerals_toJson s)
  have hdocument : Json.read s.write >>= ofJson? = some s := by
    rw [hread]
    exact ofJson?_toJson hmemory hthreads
  rw [parse, hdocument]

/-- **Settings that are written read back** if they are valid, and are refused for what is wrong
with them otherwise. -/
theorem parse_write (hmemory : s.memoryLimit < UInt64.size)
    (hthreads : ∀ t ∈ s.threads, t < UInt64.size) :
    s.write = "\x7b\"max_memory_mb\":" ++ toString s.memoryLimit ++ ",\"num_threads\":" ++
      (match s.threads with | none => "null" | some t => toString t) ++ "\x7d" ∧
    (s.validate = .ok () → parse s.write = .ok s) ∧
    ∀ e, s.validate = .error e → parse s.write = .error e := by
  have hparse := parse_write_eq hmemory hthreads
  refine ⟨write_eq s, fun h => ?_, fun e h => ?_⟩
  · rw [hparse, h]
    rfl
  · rw [hparse, h]
    rfl

/-- The greatest numbers in 64 bits are read, and refused for the memory that they ask for. -/
theorem parse_write_greatest :
    parse (write ⟨UInt64.size - 1, some (UInt64.size - 1)⟩) =
        .error (.memoryLimitOutOfRange (UInt64.size - 1)) ∧
      parse (write ⟨64, none⟩) = .ok ⟨64, none⟩ :=
  ⟨(parse_write (by decide) (by simp [UInt64.size])).2.2 _ (by decide),
    (parse_write (by decide) (by simp)).2.1 (by decide)⟩

end Betweenness.Settings
