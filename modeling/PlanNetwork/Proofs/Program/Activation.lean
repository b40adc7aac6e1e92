/-
# Which clusters a choice activates

The activations are found one after the other, a pair of a cluster and a choice
at a time, and kept in a map. If no two clusters are activated by one step, then
none is lost on the way, and the map has the activations and nothing else.

Between the supports of two paths there is one step if the longer path has one
literal more.
-/

import Mathlib.Data.List.ProdSigma
import PlanNetwork.Hierarchy
import PlanNetwork.Proofs.Identity
import PlanNetwork.Proofs.OrdMap
import PlanNetwork.Proofs.Support.Path

namespace PlanNetwork

namespace Step

theorem eq_of_compare_eq {a b : Step} (same : compare a b = .eq) : a = b := by
  rw [show compare a b = (compare a.value b.value).then (compare a.negated b.negated) from rfl,
    Ordering.then_eq_eq] at same
  obtain ⟨value, negated⟩ := same
  cases a
  cases b
  rw [Std.LawfulEqOrd.compare_eq_iff_eq] at value negated
  cases value
  cases negated
  rfl

instance : Std.LawfulEqOrd Step where
  eq_of_compare := eq_of_compare_eq

end Step

namespace Hierarchy

variable {cluster : Cluster EventId} {entry : Entry} {step : Step} {found : Activation}
  {event : EventId} {members : List EventId} {pairs : List (Cluster EventId × Entry)}

/-! ## The table of activations -/

/-- The choices that a step on a choice activates, if any are entered. -/
def entered? (found : Activation) (event : EventId) (step : Step) : Option (List EventId) :=
  (found.get? event).bind (·.get? step)

/-- Enter the choices that a step on a choice activates. -/
def enter (found : Activation) (event : EventId) (step : Step) (members : List EventId) :
    Activation :=
  found.insert event (((found.get? event).getD ∅).insert step members)

theorem entered?_enter_self : entered? (enter found event step members) event step = some members := by
  rw [entered?, enter, OrdMap.get?_insert_self, Option.bind_some, OrdMap.get?_insert_self]

theorem entered?_enter_of_ne {event' : EventId} {step' : Step}
    (differ : ¬ (event' = event ∧ step' = step)) :
    entered? (enter found event step members) event' step' = entered? found event' step' := by
  unfold entered? enter
  by_cases same : event' = event
  · subst same
    rw [OrdMap.get?_insert_self, Option.bind_some,
      OrdMap.get?_insert_of_ne fun again => differ ⟨rfl, again⟩]
    cases found.get? event' <;> rfl
  · rw [OrdMap.get?_insert_of_ne same]

/-- Every choice that is entered is entered with some step. -/
def Filled (found : Activation) : Prop :=
  ∀ event steps, found.get? event = some steps → ∃ step members, steps.get? step = some members

theorem Filled.enter (h : Filled found) : Filled (enter found event step members) := by
  intro event' steps held
  by_cases same : event' = event
  · subst same
    rw [Hierarchy.enter, OrdMap.get?_insert_self, Option.some.injEq] at held
    subst held
    exact ⟨step, members, OrdMap.get?_insert_self⟩
  · rw [Hierarchy.enter, OrdMap.get?_insert_of_ne same] at held
    exact h event' steps held

/-! ## Collecting the activations -/

/-- A step on a choice activates a cluster. -/
def Activates (cluster : Cluster EventId) (entry : Entry) (step : Step) : Prop :=
  entry.event ∉ cluster.members ∧ ∃ literal,
    activating? entry.subject entry.support cluster.support = some literal ∧
      .ofLiteral literal = step

theorem noteActivation_of_activates (h : Activates cluster entry step) :
    noteActivation cluster found entry = enter found entry.event step cluster.members := by
  obtain ⟨outside, literal, activating, rfl⟩ := h
  rw [noteActivation, if_neg (by simpa using outside), activating]
  rfl

theorem noteActivation_of_not_activates (h : ∀ step, ¬ Activates cluster entry step) :
    noteActivation cluster found entry = found := by
  unfold noteActivation
  by_cases inside : cluster.members.contains entry.event = true
  · rw [if_pos inside]
  · rw [if_neg inside]
    cases activating : activating? entry.subject entry.support cluster.support with
    | none => rfl
    | some literal => exact (h _ ⟨by simpa using inside, literal, activating, rfl⟩).elim

/-- A choice activates a cluster by one step at most. -/
theorem Activates.unique {other : Step} (h : Activates cluster entry step)
    (again : Activates cluster entry other) : step = other := by
  obtain ⟨_, literal, activating, rfl⟩ := h
  obtain ⟨_, literal', activating', rfl⟩ := again
  rw [Option.some.inj (activating.symm.trans activating')]

/-- A step on a choice activates the members of a cluster. -/
def Activated (pairs : List (Cluster EventId × Entry)) (event : EventId) (step : Step)
    (members : List EventId) : Prop :=
  ∃ pair ∈ pairs, pair.2.event = event ∧ pair.1.members = members ∧ Activates pair.1 pair.2 step

/-- No step on a choice activates two clusters. -/
def Unambiguous (pairs : List (Cluster EventId × Entry)) : Prop :=
  ∀ {event step members members'}, Activated pairs event step members →
    Activated pairs event step members' → members = members'

theorem Unambiguous.sublist {more : List (Cluster EventId × Entry)} (h : Unambiguous more)
    (among : pairs ⊆ more) : Unambiguous pairs := by
  rintro event step members members' ⟨pair, member, rest⟩ ⟨pair', member', rest'⟩
  exact h ⟨pair, among member, rest⟩ ⟨pair', among member', rest'⟩

/-- What has been entered are the activations, and nothing but them. -/
structure Records (pairs : List (Cluster EventId × Entry)) (found : Activation) : Prop where
  /-- The activations have been entered. -/
  entered : ∀ {event step members},
    entered? found event step = some members ↔ Activated pairs event step members
  /-- Every choice that is entered is entered with some step. -/
  filled : Filled found

/-- One more pair. -/
theorem Records.note {pair : Cluster EventId × Entry} (h : Records pairs found)
    (unambiguous : Unambiguous (pairs ++ [pair])) :
    Records (pairs ++ [pair]) (noteActivation pair.1 found pair.2) := by
  have old {event step members} (activated : Activated pairs event step members) :
      Activated (pairs ++ [pair]) event step members := by
    obtain ⟨other, member, rest⟩ := activated
    exact ⟨other, List.mem_append_left _ member, rest⟩
  have new {event step members} (activated : Activated (pairs ++ [pair]) event step members) :
      Activated pairs event step members ∨ pair.2.event = event ∧ pair.1.members = members ∧
        Activates pair.1 pair.2 step := by
    obtain ⟨other, member, rest⟩ := activated
    rcases List.mem_append.mp member with member | member
    · exact .inl ⟨other, member, rest⟩
    · rw [List.mem_singleton.mp member] at rest
      exact .inr rest
  by_cases active : ∃ step, Activates pair.1 pair.2 step
  · obtain ⟨step, activates⟩ := active
    have last : Activated (pairs ++ [pair]) pair.2.event step pair.1.members :=
      ⟨pair, by simp, rfl, rfl, activates⟩
    rw [noteActivation_of_activates activates]
    refine ⟨fun {event' step' members} => ?_, h.filled.enter⟩
    by_cases same : event' = pair.2.event ∧ step' = step
    · obtain ⟨rfl, rfl⟩ := same
      rw [entered?_enter_self, Option.some.injEq]
      exact ⟨fun this => this ▸ last, unambiguous last⟩
    · rw [entered?_enter_of_ne same, h.entered]
      refine ⟨old, fun activated => (new activated).resolve_right ?_⟩
      rintro ⟨rfl, _, activates'⟩
      exact same ⟨rfl, activates'.unique activates⟩
  · rw [noteActivation_of_not_activates (not_exists.mp active)]
    refine ⟨fun {event step members} => h.entered.trans ⟨old, fun activated => ?_⟩, h.filled⟩
    exact (new activated).resolve_right fun ⟨_, _, activates⟩ => active ⟨step, activates⟩

theorem Records.foldl {rest : List (Cluster EventId × Entry)} (h : Records pairs found)
    (unambiguous : Unambiguous (pairs ++ rest)) : Records (pairs ++ rest)
      (rest.foldl (fun found pair => noteActivation pair.1 found pair.2) found) := by
  induction rest generalizing pairs found with
  | nil => rwa [List.append_nil]
  | cons pair rest ih =>
    rw [List.append_cons] at unambiguous ⊢
    exact ih (h.note (unambiguous.sublist (List.subset_append_left _ _))) unambiguous

/-- All activations have been entered if no step activates two clusters. -/
theorem records_activationOf {clusters : List (Cluster EventId)} {entries : List Entry}
    (unambiguous : Unambiguous ((clusters.drop 1).product entries)) :
    Records ((clusters.drop 1).product entries) (activationOf clusters entries) := by
  have none : Records [] ∅ := by
    refine ⟨fun {event step members} => ⟨nofun, ?_⟩, nofun⟩
    rintro ⟨_, member, _⟩
    cases member
  have all : activationOf clusters entries = ((clusters.drop 1).product entries).foldl
      (fun found pair => noteActivation pair.1 found pair.2) ∅ := by
    simp only [activationOf, List.product, List.foldl_flatMap, List.foldl_map]
  rw [all]
  exact none.foldl unambiguous

/-! ## One step between paths -/

variable {literals longer : List Literal} {a literal : Literal} {subject : ChoiceVariable}

/-- Literals about the same choice are about the same variable. -/
def Agree (literals longer : List Literal) : Prop :=
  ∀ a ∈ literals, ∀ b ∈ longer, a.choice.key = b.choice.key → a.choice = b.choice

theorem contains_ofList_iff (path : IsPath literals)
    (agree : ∀ b ∈ literals, a.choice.key = b.choice.key → a.choice = b.choice) :
    (Conjunction.ofList literals).literals.contains a = true ↔ a ∈ literals := by
  rw [OrdSet.contains, List.any_eq_true]
  constructor
  · rintro ⟨b, member, same⟩
    have there := path.mem_ofList_iff.mp member
    obtain ⟨key, value, negated⟩ := Literal.compare_eq_iff.mp (beq_iff_eq.mp same)
    obtain rfl : a = b := by
      cases a
      cases b
      exact Literal.mk.injEq .. |>.mpr ⟨agree _ there key, value, negated⟩
    exact there
  · exact fun member => ⟨a, path.mem_ofList_iff.mpr member, beq_iff_eq.mpr Std.ReflCmp.compare_self⟩

theorem isSubset_ofList_iff (path : IsPath literals) (path' : IsPath longer)
    (agree : Agree literals longer) :
    (Conjunction.ofList literals).isSubset (.ofList longer) = true ↔ literals ⊆ longer := by
  rw [Conjunction.isSubset, OrdSet.isSubset, List.all_eq_true]
  refine forall_congr' fun a => ?_
  rw [show a ∈ (Conjunction.ofList literals).literals.toList ↔ a ∈ literals from
    path.mem_ofList_iff]
  exact imp_congr_right fun member => contains_ofList_iff path' (agree a member)

/-- Paths with the same support have the same literals. -/
theorem subset_of_same (path : IsPath literals) (path' : IsPath longer)
    (agree : Agree literals longer)
    (same : (Support.ofPath literals).same (.ofPath longer) = true) : literals ⊆ longer := by
  intro a member
  obtain ⟨c, last, same⟩ := OrdSet.exists_mem_of_compare_eq (l := [Conjunction.ofList literals])
    (m := [Conjunction.ofList longer]) (beq_iff_eq.mp same) _ (List.mem_singleton.mpr rfl)
  obtain rfl := List.mem_singleton.mp last
  obtain ⟨b, there, same⟩ := OrdSet.exists_mem_of_compare_eq
    (l := (Conjunction.ofList literals).toList) (m := (Conjunction.ofList longer).toList) same a
    (path.mem_ofList_iff.mpr member)
  exact (contains_ofList_iff path' (agree a member)).mp
    (List.any_eq_true.mpr ⟨b, there, beq_iff_eq.mpr same⟩)

theorem mem_difference_ofList_iff (path : IsPath literals) (path' : IsPath longer)
    (agree : Agree literals longer) :
    a ∈ ((Conjunction.ofList longer).difference (.ofList literals)).toList ↔
      a ∈ longer ∧ a ∉ literals := by
  show a ∈ ((Conjunction.ofList longer).literals.filter _).toList ↔ _
  rw [OrdSet.filter, List.mem_filter]
  rw [show a ∈ (Conjunction.ofList longer).literals.toList ↔ a ∈ longer from path'.mem_ofList_iff]
  refine and_congr_right fun member => ?_
  rw [Bool.not_eq_true', ← Bool.not_eq_true]
  exact not_congr (contains_ofList_iff path fun b there same =>
    (agree b there a member same.symm).symm)

/-- The one literal that a longer path has more, if it is about the choice. -/
theorem separating?_eq_some_iff (path : IsPath literals) (path' : IsPath longer)
    (agree : Agree literals longer) :
    separating? subject (.ofList literals) (.ofList longer) = some literal ↔
      literals ⊆ longer ∧ (∀ a, a ∈ longer ∧ a ∉ literals ↔ a = literal) ∧
        literal.choice.key = subject.key := by
  have among := isSubset_ofList_iff path path' agree
  -- what is left of the longer path is this one literal
  have rest : ((Conjunction.ofList longer).difference (.ofList literals)).toList = [literal] ↔
      ∀ a, a ∈ longer ∧ a ∉ literals ↔ a = literal := by
    have once : ((Conjunction.ofList longer).difference (.ofList literals)).toList.Nodup :=
      OrdSet.nodup _
    rw [← List.perm_singleton,
      List.perm_ext_iff_of_nodup once (List.nodup_cons.mpr ⟨List.not_mem_nil, .nil⟩)]
    simp only [mem_difference_ofList_iff path path' agree, List.mem_singleton]
  constructor
  · intro separates
    unfold separating? at separates
    split at separates
    next proper =>
      split at separates
      next other only =>
        split at separates
        next about =>
          obtain rfl := Option.some.inj separates
          exact ⟨among.mp (Bool.and_eq_true_iff.mp proper).2, rest.mp only, beq_iff_eq.mp about⟩
        next => cases separates
      next => cases separates
    next => cases separates
  · rintro ⟨subset, only, about⟩
    obtain ⟨more, new⟩ := (only literal).mpr rfl
    have shorter : (literal :: literals).length ≤ longer.length :=
      ((List.nodup_cons.mpr ⟨new, path.nodup⟩).subperm
        (List.cons_subset.mpr ⟨more, subset⟩)).length_le
    have proper : (Conjunction.ofList literals).isProperSubset (.ofList longer) = true := by
      rw [Conjunction.isProperSubset, path.size_ofList, path'.size_ofList, among.mpr subset, Bool.and_true]
      exact decide_eq_true shorter
    have matching : literal.choice.same subject = true := beq_iff_eq.mpr about
    rw [separating?, if_pos proper, rest.mpr only]
    simp only [matching, if_true]

theorem activating?_ofPath :
    activating? subject (.ofPath literals) (.ofPath longer) =
      separating? subject (.ofList literals) (.ofList longer) := by
  show List.findSome? (fun outer => List.findSome? (separating? subject outer) [.ofList longer])
    [.ofList literals] = _
  cases separates : separating? subject (.ofList literals) (.ofList longer) <;>
    simp only [List.findSome?, separates]

end Hierarchy

end PlanNetwork
