/-
# How far propagation reaches

Two walks go through the episodes inside an episode. One lists the temporal constraints that
belong to them, the other one narrows them. They meet the same episodes and the same
durations, and for composites the same internal constraints. A constraint can also be attached
to a primitive episode. It is listed then, but it is not a condition on the execution of
parts, and propagation leaves it alone.

So what has been narrowed needs the support wherever it is met, and of all that is listed
only such notes on primitive episodes go without.
-/

import PlanNetwork.Proofs.Program.Collection
import PlanNetwork.Proofs.Program.Propagation

namespace PlanNetwork

open Network

variable {n m : Network} {s : Support} {element : Guarded} {id : EpisodeId} {e : Episode}

namespace Network

/-! ## What is listed -/

/-- What some episodes have of their own can be gathered from all that are reached. -/
theorem WellFormed.exists_gathered {γ : Type} [Ord γ] [Std.LawfulEqOrd γ] [Std.TransOrd γ]
    (whole : n.WellFormed) (found : n.episode id = .ok e) (own : Episode → OrdSet γ) :
    ∃ all : OrdSet γ, n.visitUnfolding
        (fun (met : OrdSet γ) x => (n.episode x).map fun e => met.union (own e)) ∅ id = .ok all ∧
      ∀ a, a ∈ all.toList ↔ ∃ x f, n.Reaches id x ∧ n.episode x = .ok f ∧ a ∈ (own f).toList := by
  obtain ⟨all, done⟩ := exists_visitUnfolding (fun (met : OrdSet γ) e => met.union (own e)) found ∅
  have walked := done
  rw [visitUnfolding, visitTo_eq_foldlM] at walked
  refine ⟨all, done, fun a => (mem_of_gathered own walked).trans ?_⟩
  rw [or_iff_right OrdSet.not_mem_empty]
  simp only [whole.reaches_iff, unfolding, exists_and_left]

/-- The constraint is attached to a primitive episode that is reached. -/
def Annotates (n : Network) (id : EpisodeId) (c : TemporalId) : Prop :=
  ∃ x e, n.Reaches id x ∧ n.episode x = .ok e ∧ e.isPrimitive = true ∧ c ∈ e.constraints.toList

/-- The temporal constraints that are listed belong to the episode, or they are attached to
primitive episodes inside it. -/
theorem WellFormed.exists_allTemporals (whole : n.WellFormed) (found : n.episode id = .ok e) :
    ∃ all, n.allTemporals id = .ok all ∧
      ∀ c, c ∈ all.toList ↔ n.Comprises id (.temporal c) ∨ n.Annotates id c := by
  obtain ⟨all, listed, members⟩ := whole.exists_gathered found Episode.constraintsAndDuration
  refine ⟨all, listed, fun c => (members c).trans ⟨?_, ?_⟩⟩
  · rintro ⟨x, f, reached, there, own⟩
    rcases OrdSet.mem_insert_iff.mp own with rfl | attached
    · exact .inl ⟨x, f, reached, there, .inr (.inr (.inr (.inl rfl)))⟩
    · cases primitive : f.isPrimitive with
      | true => exact .inr ⟨x, f, reached, there, primitive, attached⟩
      | false =>
        exact .inl ⟨x, f, reached, there, .inr (.inr (.inr (.inr ⟨primitive, c, attached, rfl⟩)))⟩
  · rintro (⟨x, f, reached, there, own⟩ | ⟨x, f, reached, there, _, attached⟩)
    · refine ⟨x, f, reached, there, OrdSet.mem_insert_iff.mpr ?_⟩
      rcases own with same | same | same | same | ⟨_, c', attached, same⟩
      · cases same
      · cases same
      · cases same
      · exact .inl (Guarded.temporal.inj same)
      · exact .inr (Guarded.temporal.inj same ▸ attached)
    · exact ⟨x, f, reached, there, OrdSet.mem_insert_iff.mpr (.inr attached)⟩

/-! ## What is narrowed -/

/-- The element is there, and it exists only where the support holds. -/
def ConditionedOn (n : Network) (element : Guarded) (s : Support) : Prop :=
  ∃ t, n.support element = .ok t ∧ t.Entails s

theorem exists_episode_of_propagate {x : Unit} (done : Edit.propagate id s n = .ok x m) :
    ∃ e, n.episode id = .ok e := by
  obtain ⟨n', _, begins, steps, _⟩ := Edit.exists_same_of_atomically_eq_ok done
  obtain ⟨e, found, _⟩ := Attempt.read_bind_eq_ok_iff.mp steps
  obtain ⟨g, there⟩ := episode_of_bare begins.bare.symm found
  exact ⟨_, there⟩

/-- Propagation reaches everything inside an episode but what is attached to primitive
episodes. Let a network have come about in any way, and let a support have been propagated into
an episode. The temporal constraints of the episode can be listed then: they are the durations
of the episodes that are reached, the internal constraints of the composites among these, and
those that are attached to the primitive ones. Every episode that is reached and every
constraint of the first two kinds exists only where the support holds. A constraint that is
none of them has the guard that it had. -/
theorem propagation_reaches_what_belongs
    (reachable : n.Reachable ∨ ∃ p : Program, p.Reachable .free ∧ p.network = n)
    (done : Edit.propagate id s n = .ok () m) :
    ∃ all, m.allTemporals id = .ok all ∧
      (∀ c, c ∈ all.toList ↔ m.Comprises id (.temporal c) ∨ m.Annotates id c) ∧
      (∀ c ∈ all.toList, m.Comprises id (.temporal c) → m.ConditionedOn (.temporal c) s) ∧
      (∀ c ∈ all.toList, ¬ m.Comprises id (.temporal c) →
        m.guard (.temporal c) = n.guard (.temporal c)) ∧
      ∀ x, m.Reaches id x → m.ConditionedOn (.episode x) s := by
  have whole : n.WellFormed := (whole_of_reachable reachable).1
  obtain ⟨e, found⟩ := exists_episode_of_propagate done
  obtain ⟨bare, inside, outside⟩ := Edit.narrowed_propagate done
  have whole' : m.WellFormed := whole.of_bare bare
  obtain ⟨g, found'⟩ := episode_of_bare bare found
  have parts {element : Guarded} : m.Comprises id element ↔ element ∈ n.parts id :=
    parts_of_bare bare id ▸ whole'.comprises_iff found'
  have needs {element : Guarded} (belongs : m.Comprises id element) :
      m.ConditionedOn element s := by
    obtain ⟨old, new, narrowed, there⟩ := inside element (parts.mp belongs)
    exact ⟨new, there, (Support.refines_right_of_tryAnd narrowed).entails⟩
  obtain ⟨all, listed, members⟩ := whole'.exists_allTemporals found'
  refine ⟨all, listed, members, fun c _ belongs => needs belongs, fun c _ apart =>
    outside _ (mt parts.mpr apart), fun x reached => ?_⟩
  obtain ⟨f, there⟩ := exists_of_mem_unfolding found' (whole'.reaches_iff.mp reached)
  exact needs ⟨x, f, reached, there, .inl rfl⟩

/-! ## Notes on a sequence and on its first episode -/

/-- Two episodes one after the other, with a choice beside them. A constraint is attached to
the first episode and another one to the sequence. -/
@[irreducible] def annotated : Network :=
  (Network.empty .zero).afterCalls [
    ⟨_, .addChoice { domain := ["A", "B"], id := some "x", kind := some .controllable }⟩,
    ⟨_, .addEpisode {}⟩, ⟨_, .addEpisode {}⟩, ⟨_, .sequence [⟨0⟩, ⟨1⟩] {}⟩,
    ⟨_, .addTemporal ⟨1⟩ ⟨3⟩ .unconstrained⟩, ⟨_, .attachTemporal ⟨0⟩ ⟨4⟩⟩,
    ⟨_, .addTemporal ⟨2⟩ ⟨4⟩ .unconstrained⟩, ⟨_, .attachTemporal ⟨2⟩ ⟨5⟩⟩]

/-- The choice takes its first value. -/
def firstValue : Support := .ofLiteral (.is (asked 1 "x") "A")

theorem reachable_annotated : annotated.Reachable := by
  unfold annotated
  exact (Reachable.empty _).afterCalls _

theorem propagate_annotated : Edit.propagate ⟨2⟩ firstValue annotated =
    .ok () ((Edit.propagate ⟨2⟩ firstValue).after annotated) :=
  Attempt.eq_ok_of_result? (by decide +kernel)

theorem wellFormed_annotated : ((Edit.propagate ⟨2⟩ firstValue).after annotated).WellFormed :=
  reachable_annotated.wellFormed.of_bare (Edit.narrowed_propagate propagate_annotated).bare

theorem comprises_annotated_iff :
    ((Edit.propagate ⟨2⟩ firstValue).after annotated).Comprises ⟨2⟩ element ↔
      element ∈ ((Edit.propagate ⟨2⟩ firstValue).after annotated).parts ⟨2⟩ := by
  have made : (((Edit.propagate ⟨2⟩ firstValue).after annotated).episode ⟨2⟩).toOption.isSome =
      true := by decide +kernel
  obtain ⟨e, found⟩ := Option.isSome_iff_exists.mp made
  exact wellFormed_annotated.comprises_iff (toOption_eq_some_iff.mp found)

/-- The constraint that is attached to the first episode is listed. -/
theorem mem_allTemporals_annotated {all : OrdSet TemporalId}
    (listed : ((Edit.propagate ⟨2⟩ firstValue).after annotated).allTemporals ⟨2⟩ = .ok all) :
    ⟨4⟩ ∈ all.toList := by
  have computed : (((Edit.propagate ⟨2⟩ firstValue).after annotated).allTemporals ⟨2⟩).toOption.map
      (fun all => decide (⟨4⟩ ∈ all.toList)) = some true := by decide +kernel
  rw [listed] at computed
  exact of_decide_eq_true (Option.some.inj computed)

/-- The duration of an episode that is reached, a constraint that is attached to the sequence
and the second episode need the support. The constraint that is attached to the first episode
is listed as well and keeps its guard. -/
theorem propagation_reaches_what_belongs_annotated :
    annotated.Reachable ∧ ∃ m all, Edit.propagate ⟨2⟩ firstValue annotated = .ok () m ∧
      m.allTemporals ⟨2⟩ = .ok all ∧
      (∀ c ∈ [⟨0⟩, ⟨5⟩], c ∈ all.toList ∧ m.ConditionedOn (.temporal c) firstValue) ∧
      m.ConditionedOn (.episode ⟨1⟩) firstValue ∧
      ⟨4⟩ ∈ all.toList ∧ m.guard (.temporal ⟨4⟩) = annotated.guard (.temporal ⟨4⟩) := by
  have reachable : annotated.Reachable ∨
      ∃ p : Program, p.Reachable .free ∧ p.network = annotated := .inl reachable_annotated
  obtain ⟨all, listed, members, belong, apart, reached⟩ :=
    propagation_reaches_what_belongs reachable propagate_annotated
  have there := mem_allTemporals_annotated listed
  have inside : ∀ c ∈ [⟨0⟩, ⟨5⟩],
      ((Edit.propagate ⟨2⟩ firstValue).after annotated).Comprises ⟨2⟩ (.temporal c) := by
    simp only [comprises_annotated_iff]
    decide +kernel
  have outside :
      ¬ ((Edit.propagate ⟨2⟩ firstValue).after annotated).Comprises ⟨2⟩ (.temporal ⟨4⟩) := by
    rw [comprises_annotated_iff]
    decide +kernel
  refine ⟨reachable_annotated, _, all, propagate_annotated, listed, fun c own => ?_,
    reached ⟨1⟩ (wellFormed_annotated.reaches_iff.mpr (by decide +kernel)), there,
    apart _ there outside⟩
  have met := (members c).mpr (.inl (inside c own))
  exact ⟨met, belong c met (inside c own)⟩

/-- The constraint that is attached to the first episode is listed and does not need the
support: it occurs when the choice takes its second value. -/
theorem annotation_occurs_without_support :
    annotated.Reachable ∧ ∃ m all, Edit.propagate ⟨2⟩ firstValue annotated = .ok () m ∧
      m.allTemporals ⟨2⟩ = .ok all ∧ ⟨4⟩ ∈ all.toList ∧
      m.Occurs Valuation.second (.temporal ⟨4⟩) ∧ ¬ firstValue.Holds Valuation.second := by
  obtain ⟨all, listed⟩ : ∃ all,
      ((Edit.propagate ⟨2⟩ firstValue).after annotated).allTemporals ⟨2⟩ = .ok all := by
    have computed : (((Edit.propagate ⟨2⟩ firstValue).after annotated).allTemporals
        ⟨2⟩).toOption.isSome = true := by decide +kernel
    obtain ⟨all, found⟩ := Option.isSome_iff_exists.mp computed
    exact ⟨all, toOption_eq_some_iff.mp found⟩
  exact ⟨reachable_annotated, _, all, propagate_annotated, listed,
    mem_allTemporals_annotated listed, by decide +kernel, by decide +kernel⟩

end Network

end PlanNetwork
