/-
# Where elements occur

An element occurs under a valuation of the choices if the valuation meets its
guard. Narrowing takes an element away where the support that it is narrowed to
does not hold, and nowhere else. This takes guards that speak of the choices
with one vocabulary, for otherwise the check of a conjunction may go wrong.
-/

import PlanNetwork.Proofs.Composition.Propagation
import PlanNetwork.Proofs.Network.Evolution
import PlanNetwork.Proofs.Network.Tightening

namespace PlanNetwork

open Network

variable {V : Vocabulary} {narrowed replaced : Guarded → Prop} {n m k : Network}
  {element x y z : Guarded} {s t : Support}

namespace Network

/-- The element exists under the valuation. -/
def Occurs (n : Network) (v : Valuation V) (element : Guarded) : Prop :=
  ∃ s, n.support element = .ok s ∧ s.Holds v

theorem occurs_iff_of_support {v : Valuation V} (found : n.support element = .ok s) :
    n.Occurs v element ↔ s.Holds v := by
  refine ⟨fun ⟨t, there, holds⟩ => ?_, fun holds => ⟨s, found, holds⟩⟩
  exact Except.ok.inj (there.symm.trans found) ▸ holds

instance (n : Network) (v : Valuation V) (element : Guarded) : Decidable (n.Occurs v element) :=
  match found : n.support element with
  | .ok s => decidable_of_iff (s.Holds v) (occurs_iff_of_support found).symm
  | .error _ => .isFalse fun ⟨_, there, _⟩ => nomatch found.symm.trans there

theorem Occurs.has {v : Valuation V} (occurs : n.Occurs v element) : n.Has element :=
  occurs.elim fun _ ⟨found, _⟩ => has_of_support found

/-- What has one conjunction in its guard occurs if its literals are true. -/
theorem occurs_of_literals {v : Valuation V} {literals : List Literal}
    (shape : (n.support element).toOption.map (fun s => s.toList.map (·.toList)) = some [literals])
    (holds : ∀ a ∈ literals, a.Holds v) : n.Occurs v element := by
  obtain ⟨s, found, same⟩ := Option.map_eq_some_iff.mp shape
  obtain ⟨c, single, same⟩ := List.map_eq_singleton_iff.mp same
  refine ⟨s, toOption_eq_some_iff.mp found, c, ?_, fun a member => holds a (same ▸ member)⟩
  rw [single]
  exact List.mem_singleton_self c

/-- All guards are within the vocabulary. -/
def Speaks (n : Network) (V : Vocabulary) : Prop :=
  ∀ element g, n.guard element = .ok g → g.support.Within V

/-- Where the element occurs now, everything occurs that did so before. -/
def Spares (n m : Network) (element : Guarded) : Prop :=
  ∀ ⦃V : Vocabulary⦄, n.Speaks V → m.Speaks V ∧ ∀ v : Valuation V, m.Occurs v element →
    ∀ other, n.Occurs v other → m.Occurs v other

theorem Presupposes.occurs (h : n.Presupposes x y) {v : Valuation V} (occurs : n.Occurs v x) :
    n.Occurs v y := by
  obtain ⟨s, t, found, there, entails⟩ := h
  exact ⟨t, there, entails v ((occurs_iff_of_support found).mp occurs)⟩

theorem Presupposes.trans (first : n.Presupposes x y) (second : n.Presupposes y z) :
    n.Presupposes x z := by
  obtain ⟨s, t, found, there, entails⟩ := first
  obtain ⟨t', u, there', last, entails'⟩ := second
  obtain rfl := Except.ok.inj (there.symm.trans there')
  exact ⟨s, u, found, last, entails.trans entails'⟩

/-- Elements with the same guard presuppose each other. -/
theorem presupposes_of_support (found : n.support x = .ok s) (same : n.support y = .ok s) :
    n.Presupposes x y :=
  ⟨s, s, found, same, .refl s⟩

namespace Tightened

/-- What still occurs did so before. -/
theorem occurs_before (h : Tightened narrowed replaced n m) (kept : ¬ replaced x) (there : n.Has x)
    {v : Valuation V} (occurs : m.Occurs v x) : n.Occurs v x := by
  obtain ⟨s, found⟩ := there.exists_support
  obtain ⟨t, found', refines⟩ := h.refines kept found
  obtain ⟨t', there, holds⟩ := occurs
  obtain rfl := Except.ok.inj (found'.symm.trans there)
  exact ⟨_, found, refines.entails v holds⟩

/-- What has not been touched occurs where it did. -/
theorem occurs (h : Tightened narrowed replaced n m) (untouched : ¬ narrowed x) (kept : ¬ replaced x)
    {v : Valuation V} (occurs : n.Occurs v x) : m.Occurs v x := by
  obtain ⟨s, found, holds⟩ := occurs
  exact ⟨s, h.support untouched kept found, holds⟩

theorem occurs_iff (h : Tightened narrowed replaced n m) (untouched : ¬ narrowed x)
    (kept : ¬ replaced x) (there : n.Has x) {v : Valuation V} : m.Occurs v x ↔ n.Occurs v x :=
  ⟨h.occurs_before kept there, h.occurs untouched kept⟩

end Tightened

/-! ## Vocabularies -/

theorem Speaks.support (h : n.Speaks V) (found : n.support element = .ok s) : s.Within V :=
  h element _ (support_eq_ok_iff.mp found)

theorem Speaks.of_same (h : n.Speaks V) (same : Same n m) : m.Speaks V :=
  fun element g found => h element g ((same.guards element).symm.trans found)

/-- It is enough to look at the guard that is written. -/
theorem Speaks.setGuard (h : n.Speaks V) {g : Guard} (found : n.support element = .ok s)
    (within : t.Within V) : ((n.note element g).setGuard element (.ofSupport t)).Speaks V := by
  intro other g' there
  by_cases same : element = other
  · subst same
    rw [guard_setGuard_self (guard_note.trans (support_eq_ok_iff.mp found))] at there
    cases there
    exact within
  · rw [guard_setGuard_of_ne same, guard_note] at there
    exact h other g' there

theorem Speaks.pushEvent (h : n.Speaks V) {e : Event} (within : e.guard.support.Within V) :
    ({ n with events := n.events.push e } : Network).Speaks V := by
  obtain ⟨events, rest⟩ := forall_guard_iff.mp h
  exact forall_guard_iff.mpr ⟨forall_mem_push events within, rest⟩

theorem Speaks.withLink (h : n.Speaks V) {start finish : EventId} {bounds : Bounds}
    (within : s.Within V) : (Edit.withLink n start finish bounds s).Speaks V := by
  obtain ⟨events, episodes, temporals, states⟩ := forall_guard_iff.mp h
  exact forall_guard_iff.mpr ⟨events, episodes,
    forall_mem_push (P := fun c : TemporalConstraint => c.guard.support.Within V) temporals within,
    states⟩

end Network

namespace Support

theorem within_always : always.Within V := by
  intro c member
  obtain rfl := List.mem_singleton.mp member
  exact fun _ there => absurd there List.not_mem_nil

theorem Within.tryAnd {u : Support} (left : s.Within V) (right : t.Within V)
    (narrowed : s.tryAnd t = .ok u) : u.Within V := by
  obtain ⟨_, rfl⟩ := tryAnd_eq_ok_iff.mp narrowed
  exact left.and right

theorem holds_tryAnd {u : Support} (left : s.Within V) (right : t.Within V)
    (narrowed : s.tryAnd t = .ok u) (v : Valuation V) : u.Holds v ↔ s.Holds v ∧ t.Holds v := by
  obtain ⟨_, rfl⟩ := tryAnd_eq_ok_iff.mp narrowed
  exact holds_and left right v

end Support

namespace Edit

/-! ## Narrowing -/

/-- Where a support holds, everything occurs that did so before. -/
structure SparesUnder (s : Support) (V : Vocabulary) (n m : Network) : Prop where
  /-- The guards are still within the vocabulary. -/
  speaks : m.Speaks V
  /-- What occurred still does. -/
  occurs : ∀ {v : Valuation V} {element}, s.Holds v → n.Occurs v element → m.Occurs v element

namespace SparesUnder

theorem of_same (speaks : n.Speaks V) (same : Same n m) : SparesUnder s V n m := by
  refine ⟨speaks.of_same same, fun {v element} _ occurs => ?_⟩
  obtain ⟨t, found, holds⟩ := occurs
  exact ⟨t, same.adds.support found, holds⟩

theorem trans (first : SparesUnder s V n k) (second : SparesUnder s V k m) : SparesUnder s V n m :=
  ⟨second.speaks, fun holds occurs => second.occurs holds (first.occurs holds occurs)⟩

end SparesUnder

theorem sparesUnder_narrow {u : Unit} (done : narrow element s n = .ok u m) (speaks : n.Speaks V)
    (within : s.Within V) : SparesUnder s V n m := by
  obtain ⟨old, new, found, result, rfl⟩ := narrow_eq_ok_iff.mp done
  refine ⟨speaks.setGuard found ((speaks.support found).tryAnd within result), ?_⟩
  rintro v other holds ⟨t, there, before⟩
  by_cases same : element = other
  · subst same
    obtain rfl := Except.ok.inj (there.symm.trans found)
    refine ⟨new, support_eq_ok_iff.mpr (guard_setGuard_self
      (guard_note.trans (support_eq_ok_iff.mp found))), ?_⟩
    exact (Support.holds_tryAnd (speaks.support found) within result v).mpr ⟨before, holds⟩
  · refine ⟨t, ?_, before⟩
    rwa [support, guard_setGuard_of_ne same, guard_note]

theorem sparesUnder_each_narrow {elements : List Guarded} {u : Unit}
    (done : Attempt.each (narrow · s) elements n = .ok u m) (speaks : n.Speaks V)
    (within : s.Within V) : SparesUnder s V n m := by
  induction elements generalizing n with
  | nil =>
    obtain ⟨_, rfl⟩ := Attempt.pure_eq_ok_iff.mp done
    exact .of_same speaks (same_refl _)
  | cons element rest ih =>
    obtain ⟨_, k, first, later⟩ := Attempt.bind_eq_ok_iff.mp done
    have step := sparesUnder_narrow first speaks within
    exact step.trans (ih later step.speaks)

theorem sparesUnder_propagate {id : EpisodeId} {u : Unit} (done : propagate id s n = .ok u m)
    (speaks : n.Speaks V) (within : s.Within V) : SparesUnder s V n m := by
  obtain ⟨n', m', begins, narrows, ends⟩ := exists_each_of_propagate done
  have narrowing := sparesUnder_each_narrow narrows (speaks.of_same begins) within
  exact (SparesUnder.of_same speaks begins).trans
    (narrowing.trans (.of_same narrowing.speaks ends))

end Edit

end PlanNetwork
