/-
# When constraints count as the same

Two events count as the same when they share their id or their name. Callers may give ids
and names as they like, so an event may share its id with one event and its name with
another. It then counts as the same as either of them, while the two need not count as the
same themselves. This is the only way in which counting as the same is not passed on.

Constraints are compared by their events, kinds and supports, and possibly by their bounds as
well, where numbers are compared as numbers. The mean of a normal distribution is not
checked. If it is not a number, then the bounds are not equal to themselves. All other bounds
are, since what is in order can be compared.

Where no event stands between two others, both tests sort the constraints into classes, and
it does not matter which member of a class a constraint is compared with.
-/

import PlanNetwork.Proofs.Program.Intersections
import PlanNetwork.Proofs.Program.Validity

namespace PlanNetwork

/-! ## Numbers and bounds -/

namespace Number

variable {x y z : Number}

theorem equals_comm : x.equals y = true ↔ y.equals x = true := by
  simp only [equals_iff, and_comm]

theorem equals_trans (first : x.equals y = true) (second : y.equals z = true) :
    x.equals z = true := by
  obtain ⟨a, left, mid⟩ := equals_iff.mp first
  obtain ⟨b, mid', right⟩ := equals_iff.mp second
  obtain rfl := Option.some.inj (mid.symm.trans mid')
  exact equals_iff.mpr ⟨a, left, right⟩

theorem equals_self_iff : x.equals x = true ↔ x ≠ .nan := by
  cases x with
  | nan => decide
  | infinite negative => exact iff_of_true (equals_self rfl) nofun
  | finite negative units fits => exact iff_of_true (equals_self rfl) nofun

theorem ne_nan_of_le (h : x.le y = true) : x ≠ .nan ∧ y ≠ .nan := by
  refine ⟨?_, ?_⟩ <;> rintro rfl <;> simp [le, compareBy, position] at h

end Number

namespace Distribution

variable {d d' d'' : Distribution}

theorem same_comm : d.same d' = true ↔ d'.same d = true := by
  cases d <;> cases d' <;>
    simp only [same, Bool.and_eq_true, Bool.false_eq_true, Number.equals_comm]

theorem same_trans (first : d.same d' = true) (second : d'.same d'' = true) :
    d.same d'' = true := by
  cases d <;> cases d' <;> simp only [same, Bool.false_eq_true] at first <;>
    cases d'' <;> simp only [same, Bool.false_eq_true, Bool.and_eq_true] at first second ⊢ <;>
    exact ⟨Number.equals_trans first.1 second.1, Number.equals_trans first.2 second.2⟩

/-- Of the parameters of a valid distribution only a mean may not be a number. -/
theorem same_self_iff (valid : d.isValid = true) :
    d.same d = true ↔ ∀ variance, d ≠ .gaussian .nan variance := by
  cases d with
  | gaussian mean variance =>
    have number := (Number.ne_nan_of_le valid).2
    simp [same, Number.equals_self_iff, number]
  | uniform lower upper | unknown lower upper =>
    obtain ⟨low, high⟩ := Number.ne_nan_of_le valid
    simp [same, Number.equals_self_iff, low, high]

end Distribution

namespace Bounds

variable {a b c : Bounds}

theorem same_iff : a.same b = true ↔ a.kind = b.kind ∧ a.lower.equals b.lower = true ∧
    a.upper.equals b.upper = true ∧
    Option.Rel (fun d d' => d.same d' = true) a.distribution b.distribution := by
  obtain ⟨kind, lower, upper, d⟩ := a
  obtain ⟨kind', lower', upper', d'⟩ := b
  cases d <;> cases d' <;> simp [same, and_assoc]

theorem same_comm : a.same b = true ↔ b.same a = true := by
  have distributions {d d' : Option Distribution} :
      Option.Rel (fun d d' => d.same d' = true) d d' →
        Option.Rel (fun d d' => d.same d' = true) d' d
    | .none => .none
    | .some same => .some (Distribution.same_comm.mp same)
  simp only [same_iff, Number.equals_comm (x := a.lower), Number.equals_comm (x := a.upper),
    eq_comm (a := a.kind)]
  refine and_congr_right fun _ => and_congr_right fun _ => and_congr_right fun _ => ?_
  exact ⟨distributions, distributions⟩

theorem same_trans (first : a.same b = true) (second : b.same c = true) : a.same c = true := by
  have distributions {d d' d'' : Option Distribution} :
      Option.Rel (fun d d' => d.same d' = true) d d' →
        Option.Rel (fun d d' => d.same d' = true) d' d'' →
          Option.Rel (fun d d' => d.same d' = true) d d''
    | .none, .none => .none
    | .some same, .some same' => .some (Distribution.same_trans same same')
  obtain ⟨kind, lower, upper, distribution⟩ := same_iff.mp first
  obtain ⟨kind', lower', upper', distribution'⟩ := same_iff.mp second
  exact same_iff.mpr ⟨kind.trans kind', Number.equals_trans lower lower',
    Number.equals_trans upper upper', distributions distribution distribution'⟩

/-- Everything about the bounds can be compared: there is no mean that is not a number. -/
def Comparable (b : Bounds) : Prop := ∀ variance, b.distribution ≠ some (.gaussian .nan variance)

/-- Valid bounds are equal to themselves if and only if everything can be compared. -/
theorem same_self_iff (valid : b.Valid) : b.same b = true ↔ b.Comparable := by
  obtain ⟨low, high⟩ := Number.ne_nan_of_le valid.ordered
  have distributed := valid.distributed
  rw [same_iff]
  simp only [Number.equals_self_iff, low, high, ne_eq, not_false_eq_true, true_and, Comparable]
  cases given : b.distribution with
  | none => simp
  | some d =>
    have right : d.isValid = true := by
      unfold Distributed at distributed
      cases kind : b.kind <;> simp only [kind, given] at distributed
      · cases distributed
      · obtain rfl := Option.some.inj distributed
        exact valid.ordered
      · obtain ⟨_, same, right, _⟩ := distributed
        exact Option.some.inj same ▸ right
    simpa using Distribution.same_self_iff right

end Bounds

/-! ## Events -/

namespace Identity

/-- The ids are the same, or the names are. -/
def Agrees (i j : Identity) : Prop := i.id = j.id ∨ i.name = j.name

/-- It shares only its id with one of the two and only its name with the other, and these
share neither. -/
def Bridges (i j k : Identity) : Prop :=
  (i.id = j.id ∧ i.name = k.name ∨ i.name = j.name ∧ i.id = k.id) ∧ ¬ j.Agrees k

/-- Agreeing is passed on, except over a bridge. -/
theorem Agrees.trans_iff {i j k : Identity} (first : j.Agrees i) (second : i.Agrees k) :
    j.Agrees k ↔ ¬ i.Bridges j k := by
  refine ⟨fun agree bridge => bridge.2 agree, fun none => by_contra fun apart => ?_⟩
  rcases first with id | name <;> rcases second with id' | name'
  · exact apart (.inl (id.trans id'))
  · exact none ⟨.inl ⟨id.symm, name'⟩, apart⟩
  · exact none ⟨.inr ⟨name.symm, id'⟩, apart⟩
  · exact apart (.inr (name.trans name'))

end Identity

open Network

namespace Network

variable {n : Network} {a b x : TemporalId} {c d e : TemporalConstraint}

theorem sameEvent_eq_ok_true_iff {i j : EventId} {f g : Event} (found : n.event i = .ok f)
    (found' : n.event j = .ok g) :
    n.sameEvent i j = .ok true ↔ f.identity.Agrees g.identity := by
  simp [sameEvent, found, found', bind, Except.bind, pure, Except.pure, Identity.Agrees]

/-- The event stands between two others: it counts as the same as either of them, and they do
not count as the same. -/
def Bridges (n : Network) (i j k : EventId) : Prop :=
  ∃ f g h, n.event i = .ok f ∧ n.event j = .ok g ∧ n.event k = .ok h ∧
    f.identity.Bridges g.identity h.identity

/-- No event stands between two others. -/
def Unbridged (n : Network) : Prop := ∀ i j k, ¬ n.Bridges i j k

theorem sameEvent_trans_iff {i j k : EventId} (first : n.sameEvent j i = .ok true)
    (second : n.sameEvent i k = .ok true) : n.sameEvent j k = .ok true ↔ ¬ n.Bridges i j k := by
  obtain ⟨g, there, rest⟩ := bind_eq_ok_iff.mp first
  obtain ⟨f, here, _⟩ := bind_eq_ok_iff.mp rest
  obtain ⟨_, _, rest⟩ := bind_eq_ok_iff.mp second
  obtain ⟨h, there', _⟩ := bind_eq_ok_iff.mp rest
  rw [sameEvent_eq_ok_true_iff there here] at first
  rw [sameEvent_eq_ok_true_iff here there'] at second
  rw [sameEvent_eq_ok_true_iff there there', first.trans_iff second]
  refine not_congr ⟨fun bridge => ⟨f, g, h, here, there, there', bridge⟩, ?_⟩
  rintro ⟨f', g', h', same, same', same'', bridge⟩
  obtain rfl := Except.ok.inj (here.symm.trans same)
  obtain rfl := Except.ok.inj (there.symm.trans same')
  obtain rfl := Except.ok.inj (there'.symm.trans same'')
  exact bridge

/-! ## Constraints -/

/-- The start or the end of a constraint stands between those of two others. -/
def BridgesEnds (n : Network) (d c e : TemporalConstraint) : Prop :=
  n.Bridges d.start c.start e.start ∨ n.Bridges d.finish c.finish e.finish

/-- How a test of two constraints goes: what it answers of a constraint and itself, and when it
is passed on. -/
structure Compares (n : Network) (test : TemporalId → TemporalId → Except Fault Bool)
    (alone : TemporalConstraint → Prop) : Prop where
  /-- Constraints that are there can be tested, in either order. -/
  symmetric : ∀ {a b c d}, n.temporal a = .ok c → n.temporal b = .ok d →
    ∃ answer, test a b = .ok answer ∧ test b a = .ok answer
  /-- One that is not there is reported. -/
  unknown : ∀ {a b c fault}, n.temporal a = .ok c → n.temporal b = .error fault →
    test a b = .error fault
  /-- Which constraints pass the test with themselves. -/
  reflexive : ∀ {a c}, n.temporal a = .ok c → (test a a = .ok true ↔ alone c)
  /-- Passing the test is passed on, unless an end of the constraint in the middle stands
  between those of the others. -/
  transitive : ∀ {a b x c d e}, n.temporal a = .ok c → n.temporal b = .ok d →
    n.temporal x = .ok e → test a b = .ok true → test b x = .ok true →
    (test a x = .ok true ↔ ¬ n.BridgesEnds d c e)

/-- Where no event stands between two others, constraints that pass the test cannot be told
apart by it. -/
theorem Compares.eq_of_passes {test : TemporalId → TemporalId → Except Fault Bool}
    {alone : TemporalConstraint → Prop} (h : n.Compares test alone) (unbridged : n.Unbridged)
    (found : n.temporal a = .ok c) (found' : n.temporal b = .ok d)
    (passes : test a b = .ok true) (x : TemporalId) : test a x = test b x := by
  have onward {a b : TemporalId} {c d e : TemporalConstraint} (found : n.temporal a = .ok c)
      (found' : n.temporal b = .ok d) (here : n.temporal x = .ok e)
      (passes : test a b = .ok true) (passes' : test b x = .ok true) : test a x = .ok true := by
    refine (h.transitive found found' here passes passes').mpr ?_
    rintro (bridge | bridge) <;> exact unbridged _ _ _ bridge
  cases here : n.temporal x with
  | error fault => rw [h.unknown found here, h.unknown found' here]
  | ok e =>
    obtain ⟨_, there, back⟩ := h.symmetric found found'
    rw [passes] at there
    obtain rfl := Except.ok.inj there
    obtain ⟨first, tested, _⟩ := h.symmetric found here
    obtain ⟨second, tested', _⟩ := h.symmetric found' here
    have same : first = true ↔ second = true := by
      constructor
      · rintro rfl
        exact Except.ok.inj (tested'.symm.trans (onward found' found here back tested))
      · rintro rfl
        exact Except.ok.inj (tested.symm.trans (onward found found' here passes tested'))
    rw [tested, tested', Bool.eq_iff_iff.mpr same]

theorem areEquivalent_eq (found : n.temporal a = .ok c) (found' : n.temporal b = .ok d) :
    n.areEquivalent a b = (n.constrainSameEvents a b).map (· && c.bounds.same d.bounds) := by
  unfold areEquivalent
  rw [found, found']
  cases n.constrainSameEvents a b <;> rfl

theorem areEquivalent_eq_ok_true_iff (found : n.temporal a = .ok c)
    (found' : n.temporal b = .ok d) : n.areEquivalent a b = .ok true ↔
      n.constrainSameEvents a b = .ok true ∧ c.bounds.same d.bounds = true := by
  rw [areEquivalent_eq found found']
  cases n.constrainSameEvents a b <;> simp [Except.map]

section Tests

variable (formed : n.WellFormed)
include formed

/-- Relating the same events. -/
theorem WellFormed.compares_sameEvents : n.Compares n.constrainSameEvents fun _ => True where
  symmetric found found' := by
    obtain ⟨answer, tested⟩ := formed.exists_constrainSameEvents found found'
    exact ⟨answer, tested, constrainSameEvents_comm tested⟩
  unknown found missing := by simp [constrainSameEvents, found, missing, bind, Except.bind]
  reflexive found := by
    obtain ⟨start, finish⟩ := formed.exists_endpoints found
    refine iff_of_true ((constrainSameEvents_eq_ok_true_iff found found).mpr ?_) trivial
    exact ⟨sameEvent_self start, sameEvent_self finish, rfl, Support.same_refl _⟩
  transitive found found' found'' passes passes' := by
    obtain ⟨starts, finishes, kinds, supports⟩ :=
      (constrainSameEvents_eq_ok_true_iff found found').mp passes
    obtain ⟨starts', finishes', kinds', supports'⟩ :=
      (constrainSameEvents_eq_ok_true_iff found' found'').mp passes'
    rw [constrainSameEvents_eq_ok_true_iff found found'', sameEvent_trans_iff starts starts',
      sameEvent_trans_iff finishes finishes', BridgesEnds, not_or]
    refine and_congr_right fun _ => and_iff_left ?_
    exact ⟨kinds.trans kinds', Support.same_trans supports supports'⟩

/-- Relating the same events with the same bounds. -/
theorem WellFormed.compares_equivalent (valid : n.Valid) :
    n.Compares n.areEquivalent (·.bounds.Comparable) where
  symmetric found found' := by
    obtain ⟨answer, tested, tested'⟩ := formed.compares_sameEvents.symmetric found found'
    rw [areEquivalent_eq found found', areEquivalent_eq found' found, tested, tested',
      Bool.eq_iff_iff.mpr Bounds.same_comm]
    exact ⟨_, rfl, rfl⟩
  unknown found missing := by simp [areEquivalent, found, missing, bind, Except.bind]
  reflexive {a c} found := by
    have inside : c ∈ n.temporals := Array.mem_of_getElem? (lookup_eq_ok_iff.mp found)
    rw [areEquivalent_eq_ok_true_iff found found, formed.compares_sameEvents.reflexive found,
      Bounds.same_self_iff (valid.temporal c inside), true_and]
  transitive found found' found'' passes passes' := by
    obtain ⟨events, bounds⟩ := (areEquivalent_eq_ok_true_iff found found').mp passes
    obtain ⟨events', bounds'⟩ := (areEquivalent_eq_ok_true_iff found' found'').mp passes'
    rw [areEquivalent_eq_ok_true_iff found found'',
      formed.compares_sameEvents.transitive found found' found'' events events']
    exact and_iff_left (Bounds.same_trans bounds bounds')

end Tests

/-- Counting as the same is an equivalence between constraints, except over a bridge. Let a
network have come about in any way. Of two constraints that are there both tests have an
answer, which does not depend on their order. Every constraint relates the same events as
itself. It is equivalent to itself unless its mean is not a number. What passes a test with
the same constraint passes it with each other if and only if neither end of that constraint
shares its id with the one and its name with the other only. If there is no such event in the
network at all, then constraints that pass a test get the same answer from it with every
third one. -/
theorem constraint_tests_pass_on_but_over_bridges
    (reachable : n.Reachable ∨ ∃ p : Program, p.Reachable .free ∧ p.network = n) :
    n.Compares n.constrainSameEvents (fun _ => True) ∧
      n.Compares n.areEquivalent (·.bounds.Comparable) ∧
      (n.Unbridged → ∀ {a b c d}, n.temporal a = .ok c → n.temporal b = .ok d →
        (n.constrainSameEvents a b = .ok true →
          ∀ x, n.constrainSameEvents a x = n.constrainSameEvents b x) ∧
        (n.areEquivalent a b = .ok true → ∀ x, n.areEquivalent a x = n.areEquivalent b x)) := by
  have formed : n.WellFormed := (whole_of_reachable reachable).1
  have valid : n.Valid := by
    rcases reachable with built | ⟨p, built, rfl⟩
    · exact built.valid
    · exact built.valid
  have events := formed.compares_sameEvents
  have bounds := formed.compares_equivalent valid
  exact ⟨events, bounds, fun unbridged _ _ _ _ found found' =>
    ⟨events.eq_of_passes unbridged found found', bounds.eq_of_passes unbridged found found'⟩⟩

/-- An event shares its id with the one before and its name with the one after. The same
constraint leads from each of the three to another event, and there is a fourth one whose mean
is not a number. -/
@[irreducible] def bridging : Network :=
  (Network.empty .zero).afterCalls [
    ⟨_, .addEventAs ⟨0, "x", "p"⟩⟩, ⟨_, .addEventAs ⟨1, "x", "q"⟩⟩,
    ⟨_, .addEventAs ⟨2, "y", "q"⟩⟩, ⟨_, .addEventAs ⟨3, "z", "r"⟩⟩,
    ⟨_, .addTemporal ⟨0⟩ ⟨3⟩ .unconstrained⟩, ⟨_, .addTemporal ⟨1⟩ ⟨3⟩ .unconstrained⟩,
    ⟨_, .addTemporal ⟨2⟩ ⟨3⟩ .unconstrained⟩, ⟨_, .addTemporal ⟨0⟩ ⟨3⟩
      { kind := .probabilistic, distribution := some (.gaussian .nan .one) }⟩]

theorem reachable_bridging : bridging.Reachable := by
  unfold bridging
  exact (Reachable.empty _).afterCalls _

theorem start_bridging {i : Nat} (inside : i < 3) :
    ∃ c, bridging.temporal ⟨i⟩ = .ok c ∧ c.start = ⟨i⟩ := by
  have starts : ∀ i < 3, (bridging.temporal ⟨i⟩).toOption.map (·.start) = some ⟨i⟩ := by
    decide +kernel
  obtain ⟨c, found, start⟩ := Option.map_eq_some_iff.mp (starts i inside)
  exact ⟨c, toOption_eq_some_iff.mp found, start⟩

theorem bridges_bridging : bridging.Bridges ⟨1⟩ ⟨0⟩ ⟨2⟩ := by
  have first : bridging.sameEvent ⟨0⟩ ⟨1⟩ = .ok true :=
    toOption_eq_some_iff.mp (by decide +kernel)
  have second : bridging.sameEvent ⟨1⟩ ⟨2⟩ = .ok true :=
    toOption_eq_some_iff.mp (by decide +kernel)
  have apart : bridging.sameEvent ⟨0⟩ ⟨2⟩ = .ok false :=
    toOption_eq_some_iff.mp (by decide +kernel)
  refine by_contra fun none => ?_
  rw [(sameEvent_trans_iff first second).mpr none] at apart
  cases apart

/-- The constraint in the middle is equivalent to the one before and to the one after. Its
start stands between theirs, so they do not pass the test with each other. -/
theorem constraint_tests_pass_on_but_over_bridges_bridging :
    bridging.Reachable ∧ bridging.areEquivalent ⟨0⟩ ⟨1⟩ = .ok true ∧
      bridging.areEquivalent ⟨1⟩ ⟨2⟩ = .ok true ∧ bridging.areEquivalent ⟨0⟩ ⟨2⟩ ≠ .ok true := by
  have passes : bridging.areEquivalent ⟨0⟩ ⟨1⟩ = .ok true :=
    toOption_eq_some_iff.mp (by decide +kernel)
  have passes' : bridging.areEquivalent ⟨1⟩ ⟨2⟩ = .ok true :=
    toOption_eq_some_iff.mp (by decide +kernel)
  obtain ⟨c, found, start⟩ := start_bridging (i := 0) (by decide)
  obtain ⟨d, found', start'⟩ := start_bridging (i := 1) (by decide)
  obtain ⟨e, found'', start''⟩ := start_bridging (i := 2) (by decide)
  refine ⟨reachable_bridging, passes, passes', fun answer => ?_⟩
  have tests := (constraint_tests_pass_on_but_over_bridges (.inl reachable_bridging)).2.1
  refine (tests.transitive found found' found'' passes passes').mp answer (.inl ?_)
  rw [start, start', start'']
  exact bridges_bridging

/-- Neither test is passed on over the event in the middle, and a constraint whose mean is not
a number is not equivalent to itself. -/
theorem constraint_tests_fall_short :
    bridging.Reachable ∧
      (bridging.constrainSameEvents ⟨0⟩ ⟨1⟩ = .ok true ∧
        bridging.constrainSameEvents ⟨1⟩ ⟨2⟩ = .ok true ∧
        bridging.constrainSameEvents ⟨0⟩ ⟨2⟩ = .ok false) ∧
      (bridging.areEquivalent ⟨0⟩ ⟨1⟩ = .ok true ∧ bridging.areEquivalent ⟨1⟩ ⟨2⟩ = .ok true ∧
        bridging.areEquivalent ⟨0⟩ ⟨2⟩ = .ok false) ∧
      bridging.areEquivalent ⟨3⟩ ⟨3⟩ = .ok false := by
  refine ⟨reachable_bridging, ⟨?_, ?_, ?_⟩, ⟨?_, ?_, ?_⟩, ?_⟩ <;>
    exact toOption_eq_some_iff.mp (by decide +kernel)

end Network

end PlanNetwork
