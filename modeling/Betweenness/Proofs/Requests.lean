import Betweenness.Document.Request
import Betweenness.Proofs.Complaints

/-!
# Requests and options

Options reach a computation in two ways: as they are, or out of a request, in which the strategy and
the precision go by their names. Both ways are checked, and `VertexRequest.toOptions` makes its
checks in an order of its own: it looks up the name of the precision between two checks that
`VertexOptions.plan` makes one after the other. The options that come out of it are put together
anew, without a weight and without endpoints.

Once its names are resolved, a request has all the fields of options (`VertexRequest.withNames`).
To convert it is to plan these options and to keep them (`VertexRequest.toOptions_eq_map_plan`): it
is refused for the same reason as they are, and otherwise there was nothing to leave out. A name
that does not resolve is reported in its place in the order of checks.

## Main results

* `VertexRequest.toOptions_eq_map_plan`, `EdgeRequest.toOptions_eq_map_plan`: requests are validated
  as options are.
* `vertexCentrality_ne_planError`, `edgeCentrality_ne_planError`: options that have a plan are not
  refused later on.
* `toOptions_validates`: what becomes of requests, and of the options that come out of them.
-/

namespace Betweenness

open Sampling

variable {e : Error} {g : Graph} {settings : Settings} {host : Host}

/-! ### Errors of plans -/

/-- The errors by which a plan refuses options. -/
def planErrors : List Error := [.endpointsNotSupported, .weightsNotSupported, .subsetNotSupported]

theorem category_ne_typeMismatch (h : e ∈ planErrors) : e.category ≠ .typeMismatch := by
  simp only [planErrors, List.mem_cons, List.not_mem_nil, or_false] at h
  rcases h with rfl | rfl | rfl <;> exact nofun

theorem refuseUnsupported_error {endpoints : Bool} {weight : Option String}
    (h : refuseUnsupported endpoints weight = .error e) : e ∈ planErrors := by
  obtain ⟨complaint, hmem, hcomplaint⟩ :=
    (refuseUnsupported_answers endpoints weight).exists_complaint h
  simp only [List.mem_cons, List.not_mem_nil, or_false] at hmem
  rcases hmem with rfl | rfl <;> obtain ⟨-, rfl⟩ := hcomplaint <;> simp [planErrors]

theorem VertexOptions.plan_error {o : VertexOptions} (h : o.plan = .error e) : e ∈ planErrors := by
  obtain ⟨complaint, hmem, hcomplaint⟩ := o.plan_answers.exists_complaint h
  simp only [List.mem_cons, List.not_mem_nil, or_false] at hmem
  rcases hmem with rfl | rfl | rfl <;> obtain ⟨-, rfl⟩ := hcomplaint <;> simp [planErrors]

theorem EdgeOptions.plan_error {o : EdgeOptions} (h : o.plan = .error e) : e ∈ planErrors := by
  obtain ⟨complaint, hmem, hcomplaint⟩ := o.plan_answers.exists_complaint h
  obtain rfl := List.mem_singleton.mp hmem
  obtain ⟨-, rfl⟩ := hcomplaint
  simp [planErrors]

/-- Settings are refused for other reasons. -/
theorem Settings.validate_ne_planError (h : settings.validate = .error e) : e ∉ planErrors := by
  obtain ⟨complaint, hmem, hcomplaint⟩ := settings.validate_answers.exists_complaint h
  simp only [List.mem_cons, List.not_mem_nil, or_false] at hmem
  rcases hmem with rfl | rfl <;> obtain ⟨-, rfl⟩ := hcomplaint <;> simp [planErrors]

/-- So are sources, whether or not the draws of a sample come to an end. -/
theorem SourceSpec.resolveWith_ne_planError {σ : Type} [WordStream σ] {spec : SourceSpec}
    {stream : σ} (h : (spec.resolveWith g stream).1 = .error e) : e ∉ planErrors := by
  cases spec with
  | all => cases h
  | sample k =>
      have hdraw : (sampleIndices g.nodeCount k stream).1 = .error e := map_eq_error_iff.mp h
      rw [sampleIndices] at hdraw
      split at hdraw
      · obtain rfl := Except.error.inj hdraw
        simp [planErrors]
      split at hdraw
      · cases hdraw
      · obtain rfl := Except.error.inj hdraw
        simp [planErrors]
  | list ids =>
      obtain ⟨id, -, hid⟩ := exists_of_mapM_eq_error (map_eq_error_iff.mp h)
      have hnone : ∀ v, g.numbering.indexOf id ≠ .ok v := by simp [hid]
      rw [Numbering.indexOf_eq_error hnone] at hid
      obtain rfl := Except.error.inj hid
      simp [planErrors]

/-- So is a computation that takes too much memory. -/
theorem Strategy.checkMemory_ne_planError {strategy : Strategy} {scoreCount sourceCount : ℕ}
    (h : strategy.checkMemory g scoreCount sourceCount settings host = .error e) :
    e ∉ planErrors := by
  obtain ⟨complaint, hmem, hcomplaint⟩ :=
    (strategy.checkMemory_answers g scoreCount sourceCount settings host).exists_complaint h
  obtain rfl := List.mem_singleton.mp hmem
  obtain ⟨-, rfl⟩ := hcomplaint
  simp [planErrors]

section Calls

variable {α β : Type} [Scalar α] [Storage α β] {plan : Plan}

/-- Options that have a plan are not refused by a computation of vertex scores. -/
theorem vertexCentrality_ne_planError [Scalar β] {o : VertexOptions} (hplan : o.plan = .ok plan)
    (h : vertexCentrality α β g o settings host = .error e) : e ∉ planErrors := by
  simp only [vertexCentrality, hplan, ok_bind, bind_eq_error_iff] at h
  rcases h with h | ⟨-, -, h | ⟨sources, -, h | ⟨-, -, h⟩⟩⟩
  · exact Settings.validate_ne_planError h
  · exact SourceSpec.resolveWith_ne_planError h
  · exact Strategy.checkMemory_ne_planError h
  · cases h

/-- Options that have a plan are not refused by a computation of edge scores. -/
theorem edgeCentrality_ne_planError {o : EdgeOptions} (hplan : o.plan = .ok plan)
    (h : edgeCentrality α β g o settings host = .error e) : e ∉ planErrors := by
  simp only [edgeCentrality, hplan, ok_bind, bind_eq_error_iff] at h
  rcases h with h | ⟨-, -, h | ⟨sources, -, h | ⟨-, -, h⟩⟩⟩
  · exact Settings.validate_ne_planError h
  · exact SourceSpec.resolveWith_ne_planError h
  · exact Strategy.checkMemory_ne_planError h
  · cases h

end Calls

/-! ### Names -/

/-- A strategy that is not known by its name is reported with it. -/
theorem Strategy.ofName_error {name : Option String} (h : ofName name = .error e) :
    ∃ unknown, name = some unknown ∧ e = .unknownStrategy unknown := by
  cases name with
  | none => cases h
  | some name =>
      rw [ofName] at h
      split at h
      · cases h
      split at h
      · cases h
      · exact ⟨name, rfl, (Except.error.inj h).symm⟩

/-- So is a precision. -/
theorem Precision.ofName_error {name : String} (h : ofName name = .error e) :
    e = .unknownPrecision name := by
  rw [ofName] at h
  split at h
  · cases h
  split at h
  · cases h
  · exact (Except.error.inj h).symm

/-- Nothing is refused of what is not asked for. -/
theorem refuseUnsupported_eq_ok_iff {endpoints : Bool} {weight : Option String} :
    refuseUnsupported endpoints weight = .ok () ↔ endpoints = false ∧ weight = none := by
  cases endpoints <;> cases weight <;> simp [refuseUnsupported]

/-- Between a check of what is not supported and a name that is not known, the first to complain
decides. -/
theorem unknownPrecision_typeMismatch_iff {ω : Type} {endpoints : Bool} {weight : Option String}
    {name : String} :
    (refuseUnsupported endpoints weight >>= fun _ =>
      (.error (.unknownPrecision name) : Except Error ω)) = .error e ∧
        e.category = .typeMismatch ↔
      e = .unknownPrecision name ∧ endpoints = false ∧ weight = none := by
  rw [← refuseUnsupported_eq_ok_iff]
  cases hsupported : refuseUnsupported endpoints weight with
  | ok _ =>
      rw [ok_bind, Except.error.injEq]
      constructor
      · rintro ⟨rfl, -⟩
        exact ⟨rfl, rfl⟩
      · rintro ⟨rfl, -⟩
        exact ⟨rfl, rfl⟩
  | error e' =>
      rw [error_bind, Except.error.injEq]
      refine iff_of_false ?_ nofun
      rintro ⟨rfl, hcategory⟩
      exact category_ne_typeMismatch (refuseUnsupported_error hsupported) hcategory

/-! ### Requests for vertex scores -/

namespace VertexRequest

variable {r : VertexRequest} {strategy : Strategy} {precision : Precision} {o : VertexOptions}

/-- The options with the fields of a request, whose names stand for a strategy and a precision. -/
def withNames (r : VertexRequest) (strategy : Strategy) (precision : Precision) :
    VertexOptions where
  sources := r.sources
  normalized := r.normalized
  weight := r.weight
  endpoints := r.endpoints
  strategy
  seed := r.seed
  precision

/-- A strategy that is not known is reported, whatever else there is to report. -/
theorem toOptions_of_unknownStrategy (h : Strategy.ofName r.strategy = .error e) :
    r.toOptions = .error e := by
  rw [toOptions, h, error_bind]

/-- Once its names are resolved, a request is converted by planning its options. -/
theorem toOptions_eq_map_plan (hstrategy : Strategy.ofName r.strategy = .ok strategy)
    (hprecision : Precision.ofName r.precision = .ok precision) :
    r.toOptions = (fun _ => r.withNames strategy precision) <$>
      (r.withNames strategy precision).plan := by
  simp only [toOptions, VertexOptions.plan, withNames, hstrategy, hprecision, ok_bind]
  cases hsupported : refuseUnsupported r.endpoints r.weight with
  | error e => rfl
  | ok _ =>
      -- Nothing is lost when the options are put together without these two fields.
      obtain ⟨hendpoints, hweight⟩ := refuseUnsupported_eq_ok_iff.mp hsupported
      rw [hendpoints, hweight]
      cases strategy.checkSources r.sources with
      | error e => rfl
      | ok _ => rfl

/-- A precision that is not known is reported, unless something is asked for that is not
supported. -/
theorem toOptions_typeMismatch_iff (hstrategy : Strategy.ofName r.strategy = .ok strategy) :
    r.toOptions = .error e ∧ e.category = .typeMismatch ↔ e = .unknownPrecision r.precision ∧
      (∀ precision, Precision.ofName r.precision ≠ .ok precision) ∧
        r.endpoints = false ∧ r.weight = none := by
  cases hprecision : Precision.ofName r.precision with
  | ok precision =>
      refine iff_of_false (fun h => ?_) fun h => h.2.1 precision rfl
      have hplan := map_eq_error_iff.mp
        ((toOptions_eq_map_plan hstrategy hprecision).symm.trans h.1)
      exact category_ne_typeMismatch (VertexOptions.plan_error hplan) h.2
  | error e' =>
      obtain rfl := Precision.ofName_error hprecision
      rw [toOptions, hstrategy, ok_bind, hprecision]
      exact unknownPrecision_typeMismatch_iff.trans (and_congr_right' (and_iff_right nofun).symm)

/-- Options come out of a request only if its names are resolved. -/
theorem exists_names_of_toOptions (h : r.toOptions = .ok o) : ∃ strategy precision,
    Strategy.ofName r.strategy = .ok strategy ∧ Precision.ofName r.precision = .ok precision := by
  obtain ⟨strategy, hstrategy, h⟩ := bind_eq_ok_iff.mp h
  obtain ⟨-, -, h⟩ := bind_eq_ok_iff.mp h
  obtain ⟨precision, hprecision, -⟩ := bind_eq_ok_iff.mp h
  exact ⟨strategy, precision, hstrategy, hprecision⟩

/-- Options that come out of a request have a plan. -/
theorem exists_plan_of_toOptions (h : r.toOptions = .ok o) : ∃ plan, o.plan = .ok plan := by
  obtain ⟨strategy, precision, hstrategy, hprecision⟩ := exists_names_of_toOptions h
  rw [toOptions_eq_map_plan hstrategy hprecision] at h
  obtain ⟨plan, hplan, rfl⟩ := map_eq_ok_iff.mp h
  exact ⟨plan, hplan⟩

end VertexRequest

/-! ### Requests for edge scores -/

namespace EdgeRequest

variable {r : EdgeRequest} {precision : Precision}

/-- The options with the fields of a request, whose name stands for a precision. -/
def withName (r : EdgeRequest) (precision : Precision) : EdgeOptions where
  sources := r.sources
  normalized := r.normalized
  weight := r.weight
  seed := r.seed
  precision

/-- Once its name is resolved, a request is converted by planning its options. -/
theorem toOptions_eq_map_plan (hprecision : Precision.ofName r.precision = .ok precision) :
    r.toOptions = (fun _ => r.withName precision) <$> (r.withName precision).plan := by
  simp only [toOptions, EdgeOptions.plan, withName, hprecision, ok_bind]
  cases hsupported : refuseUnsupported false r.weight with
  | error e => rfl
  | ok _ =>
      obtain ⟨-, hweight⟩ := refuseUnsupported_eq_ok_iff.mp hsupported
      rw [hweight]
      rfl

/-- A precision that is not known is reported, unless a weight is asked for. -/
theorem toOptions_typeMismatch_iff :
    r.toOptions = .error e ∧ e.category = .typeMismatch ↔ e = .unknownPrecision r.precision ∧
      (∀ precision, Precision.ofName r.precision ≠ .ok precision) ∧ r.weight = none := by
  cases hprecision : Precision.ofName r.precision with
  | ok precision =>
      refine iff_of_false (fun h => ?_) fun h => h.2.1 precision rfl
      have hplan := map_eq_error_iff.mp ((toOptions_eq_map_plan hprecision).symm.trans h.1)
      exact category_ne_typeMismatch (EdgeOptions.plan_error hplan) h.2
  | error e' =>
      obtain rfl := Precision.ofName_error hprecision
      rw [toOptions, hprecision]
      refine unknownPrecision_typeMismatch_iff.trans (and_congr_right' ?_)
      rw [and_iff_right rfl, and_iff_right nofun]

/-- Options that come out of a request have a plan. -/
theorem exists_plan_of_toOptions {o : EdgeOptions} (h : r.toOptions = .ok o) :
    ∃ plan, o.plan = .ok plan := by
  obtain ⟨precision, hprecision⟩ : ∃ precision, Precision.ofName r.precision = .ok precision := by
    obtain ⟨-, -, h⟩ := bind_eq_ok_iff.mp h
    obtain ⟨precision, hprecision, -⟩ := bind_eq_ok_iff.mp h
    exact ⟨precision, hprecision⟩
  rw [toOptions_eq_map_plan hprecision] at h
  obtain ⟨plan, hplan, rfl⟩ := map_eq_ok_iff.mp h
  exact ⟨plan, hplan⟩

end EdgeRequest

/-! ### Both ways -/

/-- The answer `x` to a request is that of a plan for some options: the error with which they are
refused, if they are, and otherwise the options themselves. -/
structure FollowsPlan {ω : Type} (plan : Except Error Plan) (options : ω) (x : Except Error ω) :
    Prop where
  error_iff : ∀ e, x = .error e ↔ plan = .error e
  error_or_ok : (∃ e, x = .error e) ∨ x = .ok options ∧ ∃ p, plan = .ok p

/-- What is converted by planning follows the plan. -/
theorem FollowsPlan.of_eq_map {ω : Type} {plan : Except Error Plan} {options : ω}
    {x : Except Error ω} (h : x = (fun _ => options) <$> plan) : FollowsPlan plan options x where
  error_iff e := h ▸ map_eq_error_iff
  error_or_ok := by
    rw [h]
    cases plan with
    | error e => exact .inl ⟨e, rfl⟩
    | ok p => exact .inr ⟨rfl, p, rfl⟩

section Requests

variable (α β : Type) [Scalar α] [Scalar β] [Storage α β]

/-- Requests and options are validated alike. A request for vertex scores with the name of no
strategy is answered with this error, whatever else is wrong with it. Otherwise the name of no
precision is reported exactly if neither endpoints nor a weight are asked for, as the only type
mismatch that there is. If both names are known, the request is answered as the plan of the options
with the same fields is, and gives these very options if there is one. So is a request for edge
scores, in which there is neither a strategy nor endpoints. Options that came out of a request have
a plan, and no computation answers them with an error by which a plan refuses options. -/
theorem toOptions_validates :
    (∀ r : VertexRequest,
      (∀ e, Strategy.ofName r.strategy = .error e →
        r.toOptions = .error e ∧ e.category = .invalidArgument) ∧
      ∀ strategy, Strategy.ofName r.strategy = .ok strategy →
        (∀ e, r.toOptions = .error e ∧ e.category = .typeMismatch ↔
          e = .unknownPrecision r.precision ∧
            (∀ precision, Precision.ofName r.precision ≠ .ok precision) ∧
              r.endpoints = false ∧ r.weight = none) ∧
        ∀ precision, Precision.ofName r.precision = .ok precision →
          FollowsPlan (r.withNames strategy precision).plan (r.withNames strategy precision)
            r.toOptions) ∧
    (∀ r : EdgeRequest,
      (∀ e, r.toOptions = .error e ∧ e.category = .typeMismatch ↔
        e = .unknownPrecision r.precision ∧
          (∀ precision, Precision.ofName r.precision ≠ .ok precision) ∧ r.weight = none) ∧
      ∀ precision, Precision.ofName r.precision = .ok precision →
        FollowsPlan (r.withName precision).plan (r.withName precision) r.toOptions) ∧
    (∀ (r : VertexRequest) (o : VertexOptions), r.toOptions = .ok o →
      (∃ plan, o.plan = .ok plan) ∧
      ∀ g settings host e, vertexCentrality α β g o settings host = .error e →
        ∀ o' : VertexOptions, o'.plan ≠ .error e) ∧
    ∀ (r : EdgeRequest) (o : EdgeOptions), r.toOptions = .ok o →
      (∃ plan, o.plan = .ok plan) ∧
      ∀ g settings host e, edgeCentrality α β g o settings host = .error e →
        ∀ o' : EdgeOptions, o'.plan ≠ .error e := by
  refine ⟨fun r => ⟨fun e he => ?_, fun strategy hstrategy => ⟨fun e => ?_, ?_⟩⟩,
    fun r => ⟨fun e => r.toOptions_typeMismatch_iff, fun precision hprecision => ?_⟩,
    fun r o ho => ?_, fun r o ho => ?_⟩
  · obtain ⟨name, -, rfl⟩ := Strategy.ofName_error he
    exact ⟨VertexRequest.toOptions_of_unknownStrategy he, rfl⟩
  · exact VertexRequest.toOptions_typeMismatch_iff hstrategy
  · exact fun precision hprecision =>
      .of_eq_map (VertexRequest.toOptions_eq_map_plan hstrategy hprecision)
  · exact .of_eq_map (EdgeRequest.toOptions_eq_map_plan hprecision)
  · obtain ⟨plan, hplan⟩ := VertexRequest.exists_plan_of_toOptions ho
    exact ⟨⟨plan, hplan⟩, fun g settings host e he o' ho' =>
      vertexCentrality_ne_planError hplan he (VertexOptions.plan_error ho')⟩
  · obtain ⟨plan, hplan⟩ := EdgeRequest.exists_plan_of_toOptions ho
    exact ⟨⟨plan, hplan⟩, fun g settings host e he o' ho' =>
      edgeCentrality_ne_planError hplan he (EdgeOptions.plan_error ho')⟩

end Requests

/-- Of several faults the name of the strategy is reported first, and that of the precision only
without a weight. Level by level, a sample is refused in a request as it is in options. What comes
out of a request is computed, unless there are no threads. -/
theorem toOptions_validates_faults :
    VertexRequest.toOptions { strategy := some "cpu", endpoints := true, precision := "int8" } =
      .error (.unknownStrategy "cpu") ∧
    (∀ e, VertexRequest.toOptions { weight := some "w", precision := "int8" } = .error e →
      e.category ≠ .typeMismatch) ∧
    VertexRequest.toOptions { precision := "int8" } = .error (.unknownPrecision "int8") ∧
    VertexRequest.toOptions
        { strategy := some "gunrock", sources := .sample 2, precision := "f32" } =
      .error .subsetNotSupported ∧
    EdgeRequest.toOptions { sources := .sample 2, precision := "f32" } =
      .ok { sources := .sample 2, precision := .single } ∧
    edgeCentrality ℚ ℚ Graph.square { sources := .sample 2, precision := .single }
      { threads := some 0 } .repeatable = .error .noThreads ∧
    ∀ o' : EdgeOptions, o'.plan ≠ .error .noThreads := by
  obtain ⟨hvertex, hedge, -, hcall⟩ := toOptions_validates ℚ ℚ
  have hdefault : Strategy.ofName none = .ok .sourceBySource := rfl
  have hlevels : Strategy.ofName (some "gunrock") = .ok .levelByLevel := by decide
  have hsingle : Precision.ofName "f32" = .ok .single := by decide
  have hunknown : Precision.ofName "int8" = .error (.unknownPrecision "int8") := by decide
  have hnone : ∀ precision, Precision.ofName "int8" ≠ .ok precision := by simp [hunknown]
  have hconverted : EdgeRequest.toOptions { sources := .sample 2, precision := "f32" } =
      .ok { sources := .sample 2, precision := .single } := by
    have hfollows := (hedge { sources := .sample 2, precision := "f32" }).2 .single hsingle
    rcases hfollows.error_or_ok with ⟨e, he⟩ | ⟨hok, -⟩
    · cases (hfollows.error_iff e).mp he
    · exact hok
  have hrefused : edgeCentrality ℚ ℚ Graph.square { sources := .sample 2, precision := .single }
      { threads := some 0 } .repeatable = .error .noThreads := rfl
  refine ⟨?_, fun e he hcategory => ?_, ?_, ?_, hconverted, hrefused, ?_⟩
  · exact ((hvertex _).1 _ (by decide)).1
  · obtain ⟨-, -, -, hweight⟩ := (((hvertex _).2 _ hdefault).1 e).mp ⟨he, hcategory⟩
    cases hweight
  · exact ((((hvertex _).2 _ hdefault).1 _).mpr ⟨rfl, hnone, rfl, rfl⟩).1
  · exact ((((hvertex _).2 _ hlevels).2 _ hsingle).error_iff _).mpr rfl
  · exact (hcall _ _ hconverted).2 Graph.square { threads := some 0 } .repeatable _ hrefused

end Betweenness
