/-
# What a simplification leaves to be merged

Removing a constraint that was the duration of an episode brings in a new one
between the same events. So what is read after a simplification is in normal form
but for such durations: they may relate the same events as a constraint that has
stayed, or one event to itself.

A second simplification removes at most them, and where one of them relates the
same events as a constraint that has stayed, that constraint loses what it allowed
below zero. If the first one has brought in no new durations, the second one
changes nothing.
-/

import PlanNetwork.Proofs.Program.Equivalence
import PlanNetwork.Proofs.Program.Recursion
import PlanNetwork.Proofs.Program.Remains

namespace PlanNetwork

open Network

variable {p q : Program} {n m k : Network} {merge : Merge} {walk : Traversal}
  {found found' : OrdSet TemporalId} {a b : TemporalId}

namespace Network

/-- The second network has what the first one has, but episodes may have lost
constraints, and constraints may have got other bounds. -/
structure Rebounds (n m : Network) : Prop where
  /-- Events are the same, apart from their guards. -/
  event : ∀ {id e}, n.event id = .ok e → ∃ g, m.event id = .ok { e with guard := g }
  /-- Constraints are the same, apart from their bounds. -/
  temporal : ∀ {id c}, n.temporal id = .ok c → ∃ c', m.temporal id = .ok c' ∧
    c'.start = c.start ∧ c'.finish = c.finish ∧ c'.guard = c.guard ∧
    c'.bounds.kind = c.bounds.kind

namespace Rebounds

variable {answer : Bool}

theorem sameEvent (h : Rebounds n m) {a b : EventId} (done : n.sameEvent a b = .ok answer) :
    m.sameEvent a b = .ok answer := by
  obtain ⟨e, first, rest⟩ := bind_eq_ok_iff.mp done
  obtain ⟨f, second, rest⟩ := bind_eq_ok_iff.mp rest
  obtain ⟨_, first⟩ := h.event first
  obtain ⟨_, second⟩ := h.event second
  exact bind_eq_ok_iff.mpr ⟨_, first, bind_eq_ok_iff.mpr ⟨_, second, rest⟩⟩

theorem isSelfLoop (h : Rebounds n m) (done : n.isSelfLoop a = .ok answer) :
    m.isSelfLoop a = .ok answer := by
  obtain ⟨c, found, rest⟩ := bind_eq_ok_iff.mp done
  obtain ⟨c', found', start, finish, _⟩ := h.temporal found
  rw [isSelfLoop_eq_ok_iff found', start, finish]
  exact h.sameEvent rest

theorem constrainSameEvents (h : Rebounds n m) (done : n.constrainSameEvents a b = .ok answer) :
    m.constrainSameEvents a b = .ok answer := by
  obtain ⟨c, first, rest⟩ := bind_eq_ok_iff.mp done
  obtain ⟨d, second, rest⟩ := bind_eq_ok_iff.mp rest
  obtain ⟨starts, start, rest⟩ := bind_eq_ok_iff.mp rest
  obtain ⟨c', first', cs, cf, cg, ck⟩ := h.temporal first
  obtain ⟨d', second', ds, df, dg, dk⟩ := h.temporal second
  rw [← cs, ← ds] at start
  refine bind_eq_ok_iff.mpr ⟨c', first', bind_eq_ok_iff.mpr ⟨d', second',
    bind_eq_ok_iff.mpr ⟨starts, h.sameEvent start, ?_⟩⟩⟩
  cases starts with
  | false => exact rest
  | true =>
    obtain ⟨finishes, finish, rest⟩ := bind_eq_ok_iff.mp rest
    rw [← cf, ← df] at finish
    refine bind_eq_ok_iff.mpr ⟨finishes, h.sameEvent finish, ?_⟩
    cases finishes with
    | false => exact rest
    | true => rwa [cg, dg, ck, dk]

end Rebounds

theorem has_temporal_iff : n.Has (.temporal a) ↔ a.index < n.temporals.size := by
  refine ⟨fun ⟨g, guarded⟩ => ?_, WellFormed.has_temporal⟩
  obtain ⟨c, found, _⟩ := map_eq_ok_iff.mp guarded
  exact lookup_index_lt found

theorem has_of_temporal {c : TemporalConstraint} (found : n.temporal a = .ok c) :
    n.Has (.temporal a) :=
  has_temporal_iff.mpr (lookup_index_lt found)

end Network

/-! ## From one read to the next -/

/-- What a simplification does between the read that it starts with, and the next. -/
structure Clears (merge : Merge) (found found' : OrdSet TemporalId) (n m : Network) : Prop where
  /-- Bounds are in order before it. -/
  ordered : n.Ordered
  /-- The constraints are there. -/
  there : ∀ c ∈ found.toList, ∃ d, n.temporal c = .ok d
  /-- This is what merging finds out about them. -/
  planned : Merge.plan n .empty found.toList = .ok merge
  /-- Events stay as they are, apart from the record of their guards. -/
  event : ∀ {id e}, n.event id = .ok e → ∃ g, m.event id = .ok { e with guard := g }
  /-- Constraints have the bounds that merging gives them. -/
  temporal : ∀ {id c}, n.temporal id = .ok c → m.temporal id = .ok (merge.revised id c)
  /-- Those that are left stay. -/
  left : ∀ c ∈ found.toList, c ∉ merge.removed.toList → c ∈ found'.toList
  /-- All others are durations that replace some that are gone. -/
  members : ∀ c ∈ found'.toList, c ∈ found.toList ∧ c ∉ merge.removed.toList ∨
    ∃ id e e', n.episode id = .ok e ∧ m.episode id = .ok e' ∧ e.duration ∈ found.toList ∧
      e.duration ∈ merge.removed.toList ∧ e'.duration = c ∧
      n.temporals.size ≤ c.index ∧ m.Unconstrains c e'.start e'.finish

open Build

/-- Every simplification that succeeds does so. -/
theorem Program.Reachable.clears (reachable : p.Reachable .free)
    (own : ∀ t, p.traversal = some t →
      Traversal.collect p.network p.plan p.userConstraints = .ok t)
    {u : Unit} (simplified : simplify p = .ok u q) :
    ∃ found p₁ merge found' q₁, constraints p = .ok found p₁ ∧ constraints q = .ok found' q₁ ∧
      Clears merge found found' p₁.network q₁.network ∧ q.traversal = none := by
  obtain ⟨found, p₁, merge, viewed, planned, simplifies, stale⟩ := reachable.simplifies simplified
  obtain ⟨ordered, _, there⟩ := reachable.fits viewed planned
  obtain ⟨walk, looked, rfl⟩ := constraints_eq_ok_iff.mp viewed
  have current := reachable.current own looked
  obtain ⟨walks, met⟩ := Traversal.met_of_collect current.collected
  obtain ⟨walk', q₁, looked', same, user, met'⟩ := simplifies.exists_view stale current there
  have members := simplifies.mem_constraints_iff walks.there met met'
  rw [← user] at members
  refine ⟨_, p₁, merge, _, q₁, viewed, constraints_eq_ok_iff.mpr ⟨walk', looked', rfl⟩,
    ⟨ordered, there, planned, fun {id e} here => ?_, fun here => ?_, fun c inside stays => ?_,
      fun c inside => ?_⟩, stale⟩
  · apply event_of_bare same.bare
    rwa [event, simplifies.events]
  · exact same.temporal (simplifies.temporal here)
  · exact (members c).mpr (.inl ⟨inside, stays⟩)
  · refine ((members c).mp inside).imp_right ?_
    rintro ⟨id, member, e, e', ea, ea', gone, rfl⟩
    have strips := simplifies.strips ea ea'
    obtain ⟨new, d, here, rest⟩ := strips.reset gone
    have lasts : e.duration ∈ p₁.network.ownConstraints id :=
      (Network.mem_ownConstraints_iff ea).mpr (.inl rfl)
    refine ⟨id, e, e', ea, same.episode ea', ?_, gone, rfl, new, d, same.temporal here, ?_⟩
    · exact OrdSet.mem_union_iff.mpr (.inl ((met.constraints _).mpr (.inr ⟨id, member, lasts⟩)))
    · rwa [strips.start, strips.finish]

/-! ## What is left -/

/-- Some constraints, after a simplification, are not to be merged, but for the
durations that it has brought in. -/
structure NormalForm (n m : Network) (found : OrdSet TemporalId) : Prop where
  /-- None that was there before relates an event to itself. -/
  loops : ∀ a ∈ found.toList, n.Has (.temporal a) → m.isSelfLoop a = .ok false
  /-- No two that were there before, and are for the executive to meet, relate the
  same events. -/
  alone : ∀ a ∈ found.toList, ∀ b ∈ found.toList, n.Has (.temporal a) → n.Has (.temporal b) →
    a ≠ b → m.Controllable a → m.Controllable b → m.constrainSameEvents a b = .ok false
  /-- All others are durations that allow for everything but going backwards, of
  episodes that had one that is gone. -/
  renewed : ∀ a ∈ found.toList, ¬ n.Has (.temporal a) → ∃ id e e', n.episode id = .ok e ∧
    m.episode id = .ok e' ∧ e.duration ∉ found.toList ∧ e'.duration = a ∧
    m.Unconstrains a e'.start e'.finish

/-- What one more simplification may do to constraints in normal form. -/
structure Repeats (n m k : Network) (found found' : OrdSet TemporalId) : Prop where
  /-- Those that were there before both stay, and none comes in. -/
  members : ∀ a, n.Has (.temporal a) → (a ∈ found'.toList ↔ a ∈ found.toList)
  /-- Bounds stay what they are, or what is below zero is taken from them because
  of a duration that the first one has brought in. -/
  bounds : ∀ a c, m.temporal a = .ok c → ∃ c', k.temporal a = .ok c' ∧
    (c'.bounds = c.bounds ∨
      (∃ d ∈ found.toList, ¬ n.Has (.temporal d) ∧ m.constrainSameEvents a d = .ok true) ∧
      ∀ t, c'.bounds.Allow t ↔ c.bounds.Allow t ∧ 0 ≤ t)

theorem Merge.revised_eq (m : Merge) (id : TemporalId) (c : TemporalConstraint) :
    ∃ bounds, m.revised id c = c.rebound bounds := by
  unfold revised
  split
  · exact ⟨_, rfl⟩
  · exact ⟨(c.bounds.lower, c.bounds.upper), rfl⟩

namespace Clears

variable {found'' : OrdSet TemporalId} {merge' : Merge}

theorem rebounds (h : Clears merge found found' n m) : Rebounds n m := by
  refine ⟨h.event, fun {id c} here => ⟨_, h.temporal here, ?_⟩⟩
  obtain ⟨bounds, same⟩ := merge.revised_eq id c
  rw [same]
  exact ⟨rfl, rfl, rfl, rfl⟩

/-- What was there before has been left. -/
theorem mem_of_has (h : Clears merge found found' n m) (inside : a ∈ found'.toList)
    (old : n.Has (.temporal a)) : a ∈ found.toList ∧ a ∉ merge.removed.toList := by
  refine (h.members a inside).resolve_right ?_
  rintro ⟨_, _, _, _, _, _, _, _, new, _⟩
  exact absurd (has_temporal_iff.mp old) (Nat.not_lt.mpr new)

theorem normal (h : Clears merge found found' n m) :
    Merge.Normal m (fun a => n.Has (.temporal a)) found'.toList := by
  have before := Merge.normal_of_plan h.ordered found.nodup h.planned
  refine ⟨fun a inside old => ?_, found'.increasing.imp_of_mem fun {a b} ha hb less oldA oldB => ?_⟩
  · obtain ⟨member, stays⟩ := h.mem_of_has inside old
    exact h.rebounds.isSelfLoop (before.loops a member stays)
  · obtain ⟨memberA, staysA⟩ := h.mem_of_has ha oldA
    obtain ⟨memberB, staysB⟩ := h.mem_of_has hb oldB
    have alone := found.rel_of_lt before.alone memberA memberB less staysA staysB
    intro c' here kind
    obtain ⟨c, there⟩ := h.there a memberA
    obtain rfl := Except.ok.inj ((h.temporal there).symm.trans here)
    obtain ⟨bounds, same⟩ := merge.revised_eq a c
    rw [same] at kind
    exact h.rebounds.constrainSameEvents (alone c there kind)

theorem normalForm (h : Clears merge found found' n m) : NormalForm n m found' := by
  refine ⟨h.normal.loops, fun a ha b hb oldA oldB differ ⟨c, here, first⟩ ⟨d, there, second⟩ => ?_,
    fun a inside new => ?_⟩
  · cases order : compare a b with
    | lt => exact found'.rel_of_lt h.normal.alone ha hb order oldA oldB c here first
    | eq => exact absurd (Std.LawfulEqOrd.eq_of_compare order) differ
    | gt =>
      have less := Std.OrientedCmp.lt_of_gt order
      have alone := found'.rel_of_lt h.normal.alone hb ha less oldB oldA
      exact constrainSameEvents_comm (alone d there second)
  · rcases h.members a inside with ⟨old, _⟩ | ⟨id, e, e', ea, ea', old, gone, same, _, free⟩
    · obtain ⟨c, there⟩ := h.there a old
      exact absurd (has_of_temporal there) new
    · refine ⟨id, e, e', ea, ea', fun still => ?_, same, free⟩
      obtain ⟨c, there⟩ := h.there _ old
      exact (h.mem_of_has still (has_of_temporal there)).2 gone

/-- Durations that have come in are behind what was there before. -/
theorem behind (n : Network) (found : OrdSet TemporalId) : found.toList.Pairwise fun a b =>
    n.Has (.temporal b) → n.Has (.temporal a) := by
  refine found.increasing.imp fun {a b} less old => ?_
  have older : a.index < b.index := Nat.compare_eq_lt.mp less
  exact has_temporal_iff.mpr (older.trans (has_temporal_iff.mp old))

theorem repeats (first : Clears merge found found' n m)
    (second : Clears merge' found' found'' m k) : Repeats n m k found' found'' := by
  obtain ⟨removed, narrowed⟩ := Merge.within_of_normal second.ordered found'.nodup first.normal
    (behind n found') second.planned
  refine ⟨fun a old => ⟨fun inside => ?_, fun inside => ?_⟩, fun a c here => ?_⟩
  · have there : m.Has (.temporal a) := by
      obtain ⟨_, guarded⟩ := old
      obtain ⟨c, found, _⟩ := map_eq_ok_iff.mp guarded
      exact has_of_temporal (first.temporal found)
    exact (second.mem_of_has inside there).1
  · refine second.left a inside fun gone => ?_
    rcases removed a gone with none | new
    · simp [Merge.empty] at none
    · exact new old
  · refine ⟨_, second.temporal here, ?_⟩
    by_cases same : merge'.narrowed.get? a = none
    · exact .inl (by rw [Merge.revised_of_get?_eq_none same])
    obtain ⟨bounds, others, value, cuts⟩ := narrowed a same
    obtain ⟨d, more⟩ := List.exists_mem_of_ne_nil _ cuts.nonempty
    -- whatever is merged with it is a duration that has come in
    have free {x : TemporalId} (member : x ∈ others) {c' : TemporalConstraint}
        (there : m.temporal x = .ok c') (t : ℝ) : c'.bounds.Allow t ↔ 0 ≤ t := by
      obtain ⟨inside, new, _⟩ := cuts.same x member
      obtain ⟨_, _, _, _, _, _, _, _, there', _, _, least⟩ := first.normalForm.renewed x inside new
      obtain rfl := Except.ok.inj (there.symm.trans there')
      rw [least, Bounds.allow_precedence_infinity]
    refine .inr ⟨⟨d, cuts.same d more⟩, fun t => ?_⟩
    have allows := cuts.allows c here t
    have revised : (merge'.revised a c).bounds.Allow t ↔ Allows bounds t := by
      unfold Merge.revised
      rw [value]
      rfl
    rw [revised, allows]
    refine and_congr_right fun _ => ⟨fun all => ?_, fun least x member c' there => ?_⟩
    · obtain ⟨inside, _⟩ := cuts.same d more
      obtain ⟨c', there⟩ := second.there d inside
      exact (free more there t).mp (all d more c' there)
    · exact (free member there t).mpr least

/-- If nothing is to be merged, everything stays what it is. -/
theorem unchanged (h : Clears .empty found found' n m) :
    found' = found ∧ ∀ a c, n.temporal a = .ok c → m.temporal a = .ok c := by
  have none (a : TemporalId) : a ∉ Merge.empty.removed.toList := by simp [Merge.empty]
  refine ⟨OrdSet.eq_of_mem_iff fun a => ⟨fun inside => ?_, fun inside => h.left a inside (none a)⟩,
    fun a c => h.temporal⟩
  rcases h.members a inside with ⟨old, _⟩ | ⟨_, _, _, _, _, _, gone, _⟩
  · exact old
  · exact absurd gone (none _)

end Clears

theorem Program.Looks.has_temporal_iff (looks : p.Looks q) :
    q.network.Has (.temporal a) ↔ p.network.Has (.temporal a) := by
  have sizes := congrArg Array.size looks.network.temporals
  simp only [Array.size_map] at sizes
  rw [Network.has_temporal_iff, Network.has_temporal_iff, sizes]

/-- The constraints that a read finds. -/
theorem Build.constraints_of_result? {ids : List TemporalId}
    (h : (constraints.result? p).map OrdSet.toList = some ids) :
    ∃ found, constraints p = .ok found (constraints.after p) ∧ found.toList = ids := by
  obtain ⟨found, result, list⟩ := Option.map_eq_some_iff.mp h
  exact ⟨found, Attempt.eq_ok_of_result? result, list⟩

end PlanNetwork
