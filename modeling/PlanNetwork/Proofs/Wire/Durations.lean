/-
# Durations that are written and read again

YAML has a word for each number, so a specification comes back as it was. JSON writes `null` for
infinite numbers. Where a bound may be missing, that is read as a missing bound, and where a
number has to be, as in a distribution, it cannot be read at all. So a specification survives
JSON exactly where nothing infinite is in it that counts: a probabilistic duration does not need
its bounds, but a distribution has to be read even where it is not needed.
-/

import PlanNetwork.Proofs.Duration
import PlanNetwork.Proofs.Wire.Json
import PlanNetwork.Proofs.Wire.Yaml.Numbers
import PlanNetwork.Wire.Document

namespace PlanNetwork

open Yaml (mapping)

/-! ## Records -/

theorem forall₂_fieldIfSome {α : Type} {R : String × Tree → String × Tree → Prop} {name : String}
    {write again : α → Tree} {o : Option α}
    (each : ∀ a ∈ o, R (name, write a) (name, again a)) :
    List.Forall₂ R (fieldIfSome name write o) (fieldIfSome name again o) := by
  cases o with
  | none => exact .nil
  | some a => exact .cons (each a rfl) .nil

theorem elim_asOptional {α β : Type} {o : Option α} {write : α → Tree} {read : Tree → Option β}
    {again : α → Option β} (each : ∀ a, (write a).asOptional read = some (again a)) :
    (o.elim (some none) fun a => (write a).asOptional read) = some (o.bind again) := by
  cases o with
  | none => rfl
  | some a => exact each a

/-! ## Distributions -/

namespace Distribution

/-- The fields of a distribution, with words and numbers written in some way. -/
def fields (d : Distribution) (word : String → Tree) (number : Number → Tree) :
    List (String × Tree) :=
  match d with
  | .gaussian mean variance =>
    [("type", word "gaussian"), ("mean", number mean), ("variance", number variance)]
  | .uniform lower upper =>
    [("type", word "uniform"), ("lb", number lower), ("ub", number upper)]
  | .unknown lower upper =>
    [("type", word "unknown_bounded"), ("lb", number lower), ("ub", number upper)]

theorem toTree_eq (d : Distribution) : d.toTree = .record (d.fields .text .number) := by
  cases d <;> rfl

/-- Whether both parameters are finite. -/
def isFinite : Distribution → Bool
  | .gaussian x y | .uniform x y | .unknown x y => x.isFinite && y.isFinite

/-- A distribution of the same type, if its parameters can be had again. -/
def again? (d : Distribution) (again : Number → Option Number) : Option Distribution :=
  match d with
  | .gaussian mean variance => do return .gaussian (← again mean) (← again variance)
  | .uniform lower upper => do return .uniform (← again lower) (← again upper)
  | .unknown lower upper => do return .unknown (← again lower) (← again upper)

/-- The names of the fields of distributions. -/
def names : List String := ["type", "mean", "variance", "lb", "ub"]

/-- A distribution is read off the record of its fields. -/
theorem ofTree_fields (d : Distribution) {write : String → Tree} {number value : Number → Tree}
    (keys : ∀ s ∈ names, (write s).settled = some (.text s))
    (texts : ∀ s, (write s).asText = some s)
    (values : ∀ x, (number x).settled = some (value x)) :
    ofTree (.map (mapping write (d.fields write number))) =
      d.again? fun x => (value x).asNumber := by
  have type := keys "type" (by decide)
  have mean := keys "mean" (by decide)
  have variance := keys "variance" (by decide)
  have lb := keys "lb" (by decide)
  have ub := keys "ub" (by decide)
  -- the type is told from the parameters by its key
  cases d with
  | gaussian x y | uniform x y | unknown x y =>
    simp only [ofTree, Tree.untagged, mapping, fields, List.map_cons, List.map_nil, List.partition,
      List.partition.loop, isTypeField, type, mean, variance, lb, ub]
    simp only [texts, BEq.rfl, String.reduceBEq, List.reverse_cons, List.reverse_nil,
      List.nil_append, List.cons_append, Tree.settledFields, mean, variance, lb, ub, values,
      Option.map_some, Option.bind_some, Option.bind_eq_bind]
    rfl

theorem again?_some (d : Distribution) : d.again? some = some d := by
  cases d <;> rfl

/-- All is lost if one parameter is. -/
theorem again?_guard (d : Distribution) :
    d.again? (Option.guard (·.isFinite)) = if d.isFinite then some d else none := by
  cases d with
  | gaussian x y | uniform x y | unknown x y =>
    cases hx : x.isFinite <;> cases hy : y.isFinite <;>
      simp [again?, isFinite, Option.guard, hx, hy]

end Distribution

/-! ## Specifications -/

namespace DurationSpec

/-- The fields of a specification, with words, numbers and distributions written in some way. -/
def fields (spec : DurationSpec) (word : String → Tree) (number : Number → Tree)
    (distribution : Distribution → Tree) : List (String × Tree) :=
  [("ctype", word spec.kind.text)] ++ fieldIfSome "lb" number spec.lower ++
    fieldIfSome "ub" number spec.upper ++ fieldIfSome "distribution" distribution spec.distribution

theorem toTree_eq (spec : DurationSpec) :
    spec.toTree = .record (spec.fields .text .number Distribution.toTree) := rfl

/-- A specification is read off the record of its fields. -/
theorem ofTree_fields (spec : DurationSpec) {write : String → Tree} {number : Number → Tree}
    {distribution : Distribution → Tree} (texts : ∀ s, (write s).asText = some s) :
    ofTree (.map (mapping write (spec.fields write number distribution))) = do
      let kind ← DurationKind.ofTree (write spec.kind.text)
      let lower ← spec.lower.elim (some none) fun x => (number x).asOptional Tree.asNumber
      let upper ← spec.upper.elim (some none) fun x => (number x).asOptional Tree.asNumber
      let distribution ← spec.distribution.elim (some none) fun d =>
        (distribution d).asOptional Distribution.ofTree
      return { kind, lower, upper, distribution } := by
  unfold ofTree
  rw [Tree.asRecord_mapping _ texts]
  obtain ⟨kind, lower, upper, given⟩ := spec
  cases lower <;> cases upper <;> cases given <;> rfl

end DurationSpec

/-! ## Through YAML -/

namespace Yaml

theorem isKey_of_mem : ∀ s ∈ ["ctype", "lb", "ub", "distribution", "type", "mean", "variance"],
    IsKey s := by
  simp only [List.forall_mem_cons, List.not_mem_nil, false_implies, implies_true, and_true]
  exact ⟨⟨rfl, by decide⟩, ⟨rfl, by decide⟩, ⟨rfl, by decide⟩, ⟨rfl, by decide⟩, ⟨rfl, by decide⟩,
    ⟨rfl, by decide⟩, ⟨rfl, by decide⟩⟩

/-- How a distribution comes back. -/
def distributionAgain (d : Distribution) : Tree :=
  .map (mapping .plain (d.fields .plain numberAgain))

theorem returns_distribution (d : Distribution) : Returns 1 d.toTree (distributionAgain d) := by
  have key := isKey_of_mem
  rw [d.toTree_eq]
  refine returns_record ?_ (by cases d <;> nofun)
  cases d with
  | gaussian x y =>
    exact .cons (fieldReturns_text (key "type" (by decide)) rfl 0)
      (.cons (fieldReturns_number (key "mean" (by decide)) x 0)
        (.cons (fieldReturns_number (key "variance" (by decide)) y 0) .nil))
  | uniform x y | unknown x y =>
    exact .cons (fieldReturns_text (key "type" (by decide)) rfl 0)
      (.cons (fieldReturns_number (key "lb" (by decide)) x 0)
        (.cons (fieldReturns_number (key "ub" (by decide)) y 0) .nil))

/-- What comes back of a specification. -/
theorem parse_render_duration (spec : DurationSpec) :
    parse (render spec.toTree) =
      some (.map (mapping .plain (spec.fields .plain numberAgain distributionAgain))) := by
  have key := isKey_of_mem
  have kind : Form.of spec.kind.text = .plain := by cases spec.kind <;> rfl
  have each : List.Forall₂ (FieldReturns 1) (spec.fields .text .number Distribution.toTree)
      (spec.fields .plain numberAgain distributionAgain) := by
    refine List.rel_append (List.rel_append (List.rel_append
      (.cons (fieldReturns_text (key "ctype" (by decide)) kind 1) .nil)
      (forall₂_fieldIfSome fun x _ => ?_)) (forall₂_fieldIfSome fun x _ => ?_))
      (forall₂_fieldIfSome fun d _ => ?_)
    · exact fieldReturns_number (key "lb" (by decide)) x 1
    · exact fieldReturns_number (key "ub" (by decide)) x 1
    · exact ⟨rfl, key "distribution" (by decide), returns_distribution d⟩
  rw [spec.toTree_eq]
  exact parse_render_record each nofun (by decide)

theorem asOptional_numberAgain (x : Number) :
    (numberAgain x).asOptional Tree.asNumber = some (some x) := by
  have means := meansNumber_render x
  show (if Scalar.isNull _ then _ else (Scalar.number? _).map some) = _
  rw [means.something, means.wanted]
  rfl

theorem asOptional_distributionAgain (d : Distribution) :
    (distributionAgain d).asOptional Distribution.ofTree = some (some d) := by
  have keys : ∀ s ∈ Distribution.names, (Tree.plain s).settled = some (.text s) := by
    intro s member
    have known : ∀ s ∈ Distribution.names,
      s ∈ ["ctype", "lb", "ub", "distribution", "type", "mean", "variance"] := by decide
    rw [Tree.settled]
    exact (isKey_of_mem s (known s member)).resolve
  have values (x : Number) : (numberAgain x).settled = some (.number x) := by
    rw [numberAgain, Tree.settled]
    exact (meansNumber_render x).settled
  have read := d.ofTree_fields keys (fun _ => rfl) values
  exact congrArg (Option.map some) (read.trans d.again?_some)

end Yaml

/-- A specification comes back through YAML as it was. -/
theorem DurationSpec.ofTree_yaml (spec : DurationSpec) :
    (Yaml.parse (Yaml.render spec.toTree)).bind ofTree = some spec := by
  have kind : DurationKind.ofTree (.plain spec.kind.text) = some spec.kind := by
    cases spec.kind <;> rfl
  have bound (o : Option Number) := elim_asOptional (o := o) Yaml.asOptional_numberAgain
  have distribution := elim_asOptional (o := spec.distribution) Yaml.asOptional_distributionAgain
  rw [Yaml.parse_render_duration, Option.bind_some, spec.ofTree_fields fun _ => rfl, kind,
    bound spec.lower, bound spec.upper, distribution]
  simp

/-! ## Through JSON -/

namespace Json

/-- How a number comes back. -/
def numberAgain (x : Number) : Tree := if x.isFinite then .number x else .null

/-- How a distribution comes back. -/
def distributionAgain (d : Distribution) : Tree := .record (d.fields .text numberAgain)

theorem returns_numberAgain (x : Number) (height : Nat) :
    Returns height (.number x) (numberAgain x) := by
  unfold numberAgain
  split
  next finite => exact returns_number finite height
  next infinite => exact returns_null (by rw [render, numberText, if_neg infinite]) height

theorem returns_distribution (d : Distribution) (height : Nat) :
    Returns (height + 1) d.toTree (distributionAgain d) := by
  rw [d.toTree_eq]
  refine returns_record ?_ (by cases d <;> nofun)
  cases d with
  | gaussian x y | uniform x y | unknown x y =>
    exact .cons ⟨rfl, returns_text _ height⟩ (.cons ⟨rfl, returns_numberAgain x height⟩
      (.cons ⟨rfl, returns_numberAgain y height⟩ .nil))

/-- What comes back of a specification. -/
theorem parse_render_duration (spec : DurationSpec) :
    parse (render spec.toTree) =
      some (.record (spec.fields .text numberAgain distributionAgain)) := by
  have each : List.Forall₂ (fun f g => g.1 = f.1 ∧ Returns 126 f.2 g.2)
      (spec.fields .text .number Distribution.toTree)
      (spec.fields .text numberAgain distributionAgain) := by
    refine List.rel_append (List.rel_append (List.rel_append
      (.cons ⟨rfl, returns_text _ 126⟩ .nil) (forall₂_fieldIfSome fun x _ => ?_))
      (forall₂_fieldIfSome fun x _ => ?_)) (forall₂_fieldIfSome fun d _ => ?_)
    · exact ⟨rfl, returns_numberAgain x 126⟩
    · exact ⟨rfl, returns_numberAgain x 126⟩
    · exact ⟨rfl, returns_distribution d 125⟩
  rw [spec.toTree_eq]
  exact parse_render (returns_record each nofun)

theorem asOptional_numberAgain (x : Number) :
    (numberAgain x).asOptional Tree.asNumber = some (Option.guard (·.isFinite) x) := by
  unfold numberAgain
  cases finite : x.isFinite <;> simp [Option.guard, finite, Tree.asOptional, Tree.asNumber]

theorem asOptional_distributionAgain (d : Distribution) :
    (distributionAgain d).asOptional Distribution.ofTree =
      if d.isFinite then some (some d) else none := by
  have settled (x : Number) : (numberAgain x).settled = some (numberAgain x) := by
    unfold numberAgain
    split <;> simp [Tree.settled]
  have number : (fun x => (numberAgain x).asNumber) = Option.guard (·.isFinite) := by
    funext x
    unfold numberAgain
    cases finite : x.isFinite <;> simp [Option.guard, finite, Tree.asNumber, Tree.bare?]
  have read : Distribution.ofTree (.map (mapping .text (d.fields .text numberAgain))) = _ :=
    d.ofTree_fields (fun _ _ => by simp [Tree.settled]) (fun _ => rfl) settled
  rw [number, d.again?_guard] at read
  show (Distribution.ofTree (.map (mapping .text (d.fields .text numberAgain)))).map some = _
  rw [read]
  cases d.isFinite <;> rfl

end Json

namespace DurationSpec

/-- What JSON loses: infinite bounds, and everything if a distribution is not finite. -/
theorem ofTree_json (spec : DurationSpec) :
    (Json.parse (Json.render spec.toTree)).bind ofTree =
      if spec.distribution.all (·.isFinite) then
        some { spec with lower := spec.lower.filter (·.isFinite)
                         upper := spec.upper.filter (·.isFinite) }
      else none := by
  have kind : DurationKind.ofTree (.text spec.kind.text) = some spec.kind := by
    cases spec.kind <;> rfl
  have bound (o : Option Number) :
      (o.elim (some none) fun x => (Json.numberAgain x).asOptional Tree.asNumber) =
        some (o.filter (·.isFinite)) := by
    rw [elim_asOptional Json.asOptional_numberAgain, Option.bind_guard]
  rw [Json.parse_render_duration, Option.bind_some]
  refine (spec.ofTree_fields fun _ => rfl).trans ?_
  rw [kind, bound spec.lower, bound spec.upper]
  cases described : spec.distribution with
  | none => simp
  | some d =>
    rw [Option.elim_some, Json.asOptional_distributionAgain]
    cases finite : d.isFinite <;> simp [finite]

/-- Only a probabilistic duration can do without its bounds. -/
theorem resolve_filter_iff {spec : DurationSpec} {bounds : Bounds}
    (accepted : spec.resolve = .ok bounds) :
    resolve { spec with lower := spec.lower.filter (·.isFinite)
                        upper := spec.upper.filter (·.isFinite) } = .ok bounds ↔
      (spec.kind ≠ .probabilistic →
        bounds.lower.isFinite = true ∧ bounds.upper.isFinite = true) := by
  obtain ⟨kind, lower, upper, distribution⟩ := spec
  cases kind with
  | probabilistic => exact ⟨fun _ other => absurd rfl other, fun _ => accepted⟩
  | controllable | bounded =>
    cases lower with
    | none => cases accepted
    | some lower =>
    cases upper with
    | none => cases accepted
    | some upper =>
      cases checked : checkBounds lower upper with
      | error => simp [resolve, givenBounds, checked, Except.map] at accepted
      | ok =>
        simp only [resolve, givenBounds, checked, Except.map, Except.ok.injEq] at accepted
        subst accepted
        cases hl : lower.isFinite <;> cases hu : upper.isFinite <;>
          simp [resolve, givenBounds, checked, Except.map, Option.filter, hl, hu]

/-- A specification that is accepted survives YAML as it is. It survives JSON, with bounds and
distribution, exactly if the bounds that it is resolved to are finite, unless the duration is
probabilistic, and the distribution is, if one is given. -/
theorem accepted_survives {spec : DurationSpec} {bounds : Bounds}
    (accepted : spec.resolve = .ok bounds) :
    (∃ again, (Yaml.parse (Yaml.render spec.toTree)).bind ofTree = some again ∧
      again.resolve = .ok bounds) ∧
    ((∃ again, (Json.parse (Json.render spec.toTree)).bind ofTree = some again ∧
        again.resolve = .ok bounds) ↔
      (spec.kind ≠ .probabilistic → bounds.lower.isFinite = true ∧ bounds.upper.isFinite = true) ∧
        ∀ d ∈ spec.distribution, d.isFinite = true) := by
  refine ⟨⟨spec, spec.ofTree_yaml, accepted⟩, ?_⟩
  rw [spec.ofTree_json, ← resolve_filter_iff accepted]
  cases described : spec.distribution with
  | none => simp
  | some d => cases finite : d.isFinite <;> simp [finite]

/-- The default duration has no upper bound. YAML has a word for that, and JSON does not. -/
theorem accepted_survives_unconstrained :
    let bounds : Bounds := ⟨.controllable, .zero, .infinity, none⟩
    unconstrained.resolve = .ok bounds ∧
      (∃ again, (Yaml.parse (Yaml.render unconstrained.toTree)).bind ofTree = some again ∧
        again.resolve = .ok bounds) ∧
      ¬ ∃ again, (Json.parse (Json.render unconstrained.toTree)).bind ofTree = some again ∧
        again.resolve = .ok bounds := by
  obtain ⟨yaml, json⟩ := accepted_survives resolve_unconstrained
  refine ⟨resolve_unconstrained, yaml, fun survives => ?_⟩
  have finite := (json.mp survives).1 nofun
  exact absurd finite.2 (by decide)

/-- What comes back of the default duration through JSON lacks a bound and is refused. -/
theorem unconstrained_is_lost :
    unconstrained.resolve = .ok ⟨.controllable, .zero, .infinity, none⟩ ∧
      (Json.parse (Json.render unconstrained.toTree)).bind ofTree =
        some { lower := some .zero } ∧
      resolve { lower := some .zero } = .error (.boundsMissing .controllable) := by
  have zero : Number.zero.isFinite = true := by
    obtain ⟨fits, same⟩ := Number.zero_eq_finite
    rw [same, Number.isFinite]
  have infinity : Number.infinity.isFinite = false := rfl
  have lower : (some Number.zero).filter (·.isFinite) = some .zero := by
    rw [Option.filter, if_pos zero]
  have upper : (some Number.infinity).filter (·.isFinite) = none := by simp [infinity]
  have again := unconstrained.ofTree_json
  simp only [unconstrained, lower, upper] at again
  exact ⟨resolve_unconstrained, again, rfl⟩

end DurationSpec

end PlanNetwork
