/-
# Schedules

A schedule gives every event a time. The executive sees to it that what it
controls is met: where such a constraint applies, the time from its first to its
second event is within its bounds.

Comparing takes events with the same id or the same name for one event. A
schedule agrees with that if it gives them the same time. Then two constraints
that relate the same events bound the same time, and apply together.
-/

import PlanNetwork.Network.Comparison
import PlanNetwork.Proofs.Network.Evolution
import PlanNetwork.Proofs.Number
import PlanNetwork.Proofs.Support.Cluster
import PlanNetwork.Proofs.Support.Valuation

namespace PlanNetwork

variable {V : Vocabulary} {v : Valuation V} {d : ℝ} {n m : Network}

/-- A time for every event. -/
abbrev Schedule : Type := EventId → ℝ

/-- Both are bounds of `d`. -/
def Allows (bounds : Number × Number) (d : ℝ) : Prop := bounds.1.AtMost d ∧ bounds.2.AtLeast d

/-- The duration is within the bounds. -/
def Bounds.Allow (b : Bounds) (d : ℝ) : Prop := Allows (b.lower, b.upper) d

/-- If the constraint is for the executive to meet, and applies, it is met. -/
def TemporalConstraint.Met (v : Valuation V) (t : Schedule) (c : TemporalConstraint) : Prop :=
  c.bounds.kind = .controllable → c.guard.support.Holds v →
    c.bounds.Allow (t c.finish - t c.start)

/-- The constraint with other bounds. -/
def TemporalConstraint.rebound (bounds : Number × Number) (c : TemporalConstraint) :
    TemporalConstraint :=
  { c with bounds := { c.bounds with lower := bounds.1, upper := bounds.2 } }

/-- A duration of zero is allowed by bounds that start there. -/
theorem Bounds.Ordered.allow_zero {b : Bounds} (ordered : b.Ordered)
    (lower : b.lower.equals .zero = true) : b.Allow 0 := by
  have below : Number.zero.AtMost 0 := by simp [Number.atMost_zero]
  have above : Number.zero.AtLeast 0 := by simp [Number.atLeast_zero]
  constructor
  · exact (Number.atMost_congr lower).mpr below
  · exact above.of_le (Number.le_trans (Number.le_of_equals lower).2 ordered)

theorem Bounds.allow_precedence {upper : Number} :
    (precedence upper).Allow d ↔ 0 ≤ d ∧ upper.AtLeast d := by
  simp [Allow, Allows, precedence, Number.atMost_zero]

theorem Bounds.allow_precedence_infinity : (precedence .infinity).Allow d ↔ 0 ≤ d := by
  simp [allow_precedence, Number.atLeast_infinity]

/-! ## Intersecting bounds -/

section Intersection

variable {bounds : Number × Number} {b : Bounds}

/-- The bounds that two constraints have together, as merging computes them. -/
def intersection (bounds : Number × Number) (b : Bounds) : Number × Number :=
  (bounds.1.max b.lower, bounds.2.min b.upper)

/-- The intersection allows what both allow. -/
theorem allows_intersection (ordered : bounds.1.le bounds.2 = true) (ordered' : b.Ordered) :
    Allows (intersection bounds b) d ↔ Allows bounds d ∧ b.Allow d := by
  obtain ⟨lower, upper⟩ := Number.isNaN_eq_false_of_le ordered
  obtain ⟨lower', upper'⟩ := Number.isNaN_eq_false_of_le ordered'
  unfold Bounds.Allow Allows intersection
  rw [Number.atMost_max lower lower', Number.atLeast_min upper upper']
  exact and_and_and_comm

/-- If the bounds do not pass each other, the intersection is in order. -/
theorem le_intersection (ordered : bounds.1.le bounds.2 = true) (ordered' : b.Ordered)
    (meet : (intersection bounds b).2.lt (intersection bounds b).1 = false) :
    (intersection bounds b).1.le (intersection bounds b).2 = true := by
  obtain ⟨lower, upper⟩ := Number.isNaN_eq_false_of_le ordered
  obtain ⟨lower', upper'⟩ := Number.isNaN_eq_false_of_le ordered'
  have least := Number.isNaN_max lower lower'
  have greatest := Number.isNaN_min upper upper'
  exact Number.le_of_lt_eq_false greatest least meet

end Intersection

namespace Network

/-- All of the constraints are met. -/
def Meets (n : Network) (ids : OrdSet TemporalId) (v : Valuation V) (t : Schedule) : Prop :=
  ∀ id ∈ ids.toList, ∀ c, n.temporal id = .ok c → c.Met v t

/-- Events that count as the same are at the same time. -/
def Agrees (n : Network) (t : Schedule) : Prop :=
  ∀ {a b}, n.sameEvent a b = .ok true → t a = t b

theorem Ordered.temporal (h : n.Ordered) {id : TemporalId} {c : TemporalConstraint}
    (found : n.temporal id = .ok c) : c.bounds.Ordered :=
  h c (Array.mem_of_getElem? (lookup_eq_ok_iff.mp found))

variable {a b : TemporalId} {c : TemporalConstraint} {t : Schedule}

theorem isSelfLoop_eq_ok_iff (found : n.temporal a = .ok c) {answer : Bool} :
    n.isSelfLoop a = .ok answer ↔ n.sameEvent c.start c.finish = .ok answer := by
  unfold isSelfLoop
  rw [found]
  rfl

theorem of_constrainSameEvents (found : n.temporal a = .ok c)
    (same : n.constrainSameEvents a b = .ok true) : ∃ d, n.temporal b = .ok d ∧
      n.sameEvent c.start d.start = .ok true ∧ n.sameEvent c.finish d.finish = .ok true ∧
      c.bounds.kind = d.bounds.kind ∧ c.guard.support.same d.guard.support = true := by
  obtain ⟨_, found', rest⟩ := bind_eq_ok_iff.mp same
  obtain rfl := Except.ok.inj (found.symm.trans found')
  obtain ⟨d, other, rest⟩ := bind_eq_ok_iff.mp rest
  obtain ⟨starts, first, rest⟩ := bind_eq_ok_iff.mp rest
  cases starts with
  | false => simp [pure, Except.pure] at rest
  | true =>
    obtain ⟨finishes, second, rest⟩ := bind_eq_ok_iff.mp rest
    cases finishes with
    | false => simp [pure, Except.pure] at rest
    | true =>
      have last := Bool.and_eq_true_iff.mp (Except.ok.inj rest)
      exact ⟨d, other, first, second, eq_of_beq last.1, last.2⟩

theorem sameEvent_comm {a b : EventId} {answer : Bool} (done : n.sameEvent a b = .ok answer) :
    n.sameEvent b a = .ok answer := by
  obtain ⟨e, first, rest⟩ := bind_eq_ok_iff.mp done
  obtain ⟨f, second, rest⟩ := bind_eq_ok_iff.mp rest
  obtain rfl := Except.ok.inj rest
  refine bind_eq_ok_iff.mpr ⟨f, second, bind_eq_ok_iff.mpr ⟨e, first, ?_⟩⟩
  rw [BEq.comm, BEq.comm (a := f.identity.name)]
  rfl

theorem constrainSameEvents_comm {answer : Bool} (done : n.constrainSameEvents a b = .ok answer) :
    n.constrainSameEvents b a = .ok answer := by
  obtain ⟨c, first, rest⟩ := bind_eq_ok_iff.mp done
  obtain ⟨d, second, rest⟩ := bind_eq_ok_iff.mp rest
  obtain ⟨starts, start, rest⟩ := bind_eq_ok_iff.mp rest
  refine bind_eq_ok_iff.mpr ⟨d, second, bind_eq_ok_iff.mpr ⟨c, first,
    bind_eq_ok_iff.mpr ⟨starts, sameEvent_comm start, ?_⟩⟩⟩
  cases starts with
  | false => exact rest
  | true =>
    obtain ⟨finishes, finish, rest⟩ := bind_eq_ok_iff.mp rest
    refine bind_eq_ok_iff.mpr ⟨finishes, sameEvent_comm finish, ?_⟩
    cases finishes with
    | false => exact rest
    | true =>
      rw [← rest, BEq.comm, Bool.eq_iff_iff.mpr Support.same_comm]

/-- Constraints on the same events bound the same time, and apply together. -/
theorem Agrees.met_iff {c' : TemporalConstraint} (agrees : n.Agrees t)
    (found : n.temporal a = .ok c) (found' : n.temporal b = .ok c')
    (same : n.constrainSameEvents a b = .ok true) (kind : c.bounds.kind = .controllable) :
    c'.Met v t ↔
      (c.guard.support.Holds v → c'.bounds.Allow (t c.finish - t c.start)) := by
  obtain ⟨d, found'', starts, finishes, kinds, guards⟩ := of_constrainSameEvents found same
  obtain rfl := Except.ok.inj (found'.symm.trans found'')
  unfold TemporalConstraint.Met
  rw [agrees starts, agrees finishes, ← kinds, Support.holds_congr v guards]
  simp [kind]

end Network

end PlanNetwork
