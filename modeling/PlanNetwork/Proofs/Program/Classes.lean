/-
# Classes of constraints

Where ids and names tell events apart, constraints relate the same events if and only if
they start and end at the same ones. Being mergeable is then passed on, and the constraints
that are for the executive to meet fall into classes. Merging goes through them oldest
first. The oldest of a class stays, and all the others are compared with it. Of a class, all
have been removed or none, so nothing of it is missing when its turn comes.

Merging is refused if and only if the bounds of a whole class pass each other, or a
constraint from an event to itself says something. Nothing has been written then. If it goes
through, and the constraints can be removed, the oldest of each class has the bounds that
the class has together, and the others are gone from wherever they were.
-/

import PlanNetwork.Proofs.Program.Active
import PlanNetwork.Proofs.Program.Intersections

namespace PlanNetwork

open Network

variable {n : Network} {x y z : TemporalId} {c : TemporalConstraint}

/-! ## Classes -/

namespace Network

theorem Mergeable.symm (h : n.Mergeable x y) : n.Mergeable y x := by
  obtain ⟨c, d, found, found', kind, kind', straight, starts, finishes, supports⟩ := h
  exact ⟨d, c, found', found, kind', kind, by rwa [starts, finishes], starts.symm, finishes.symm,
    Support.same_comm.mp supports⟩

theorem Mergeable.trans (first : n.Mergeable x y) (second : n.Mergeable y z) :
    n.Mergeable x z := by
  obtain ⟨c, d, found, found', kind, _, straight, starts, finishes, supports⟩ := first
  obtain ⟨_, e, there, found'', _, kind', _, starts', finishes', supports'⟩ := second
  obtain rfl := Except.ok.inj (found'.symm.trans there)
  exact ⟨c, e, found, found'', kind, kind', straight, starts'.trans starts,
    finishes'.trans finishes, Support.same_trans supports supports'⟩

/-- Of the constraints that are read, those that can be merged with this one. -/
def ClassOf (n : Network) (found : OrdSet TemporalId) (a b : TemporalId) : Prop :=
  b ∈ found.toList ∧ n.Mergeable a b

/-- What is in the way of merging: a constraint from an event to itself that is not for the
executive or does not start at zero, or a class whose bounds pass each other. -/
def Unmergeable (n : Network) (found : OrdSet TemporalId) : Prop :=
  (∃ b c, b ∈ found.toList ∧ n.temporal b = .ok c ∧ c.start = c.finish ∧
      ¬ (c.bounds.kind = .controllable ∧ c.bounds.lower.equals .zero = true)) ∨
    ∃ a, n.ClassOf found a a ∧ ∃ bounds, n.Tightest (n.ClassOf found a) bounds ∧
      bounds.2.lt bounds.1 = true

/-- The constraints that are read fall into classes. -/
structure Classified (n : Network) (found : OrdSet TemporalId) : Prop where
  /-- Bounds are in order. -/
  ordered : n.Ordered
  /-- The constraints are between events that are there. -/
  formed : n.WellFormed
  /-- Events are told apart. -/
  apart : n.TellsApart
  /-- What is read is there. -/
  there : ∀ x ∈ found.toList, ∃ c, n.temporal x = .ok c

namespace Classified

variable {m : Merge} {found : OrdSet TemporalId} {a b : TemporalId}
  (h : n.Classified found)

include h

theorem mergeable_iff (ha : a ∈ found.toList) (hb : b ∈ found.toList) :
    n.Mergeable a b ↔ n.Controllable a ∧ n.isSelfLoop a = .ok false ∧
      n.constrainSameEvents a b = .ok true := by
  obtain ⟨c, here⟩ := h.there a ha
  exact h.apart.mergeable_iff h.formed here (h.there b hb)

/-- Constraints of one class have bounds together. -/
theorem exists_tightest (member : n.ClassOf found a a) :
    ∃ bounds, n.Tightest (n.ClassOf found a) bounds := by
  obtain ⟨c, here⟩ := h.there a member.1
  classical
  let others := found.toList.filter fun b => n.Mergeable a b
  have there : ∀ x ∈ others, ∃ t, n.temporal x = .ok t := fun x inside =>
    h.there x (List.mem_filter.mp inside).1
  obtain ⟨bounds, tight⟩ :=
    (Tightest.single here (h.ordered.temporal here)).exists_append h.ordered there
  refine ⟨bounds, tight.congr fun x => ?_⟩
  rw [List.mem_filter, decide_eq_true_iff]
  exact or_iff_right_of_imp fun here => here ▸ member

section Planned

variable (planned : Merge.plan n .empty found.toList = .ok m)

include planned

theorem normal : Merge.Normal n (· ∉ m.removed.toList) found.toList :=
  Merge.normal_of_plan h.ordered found.nodup planned

/-- A constraint that is removed says nothing, or relates the same events as an older one
that stays. -/
theorem idle_or_exists_left (gone : b ∈ m.removed.toList) : Merge.Idle n b ∨
    ∃ a ∈ found.toList, a.index < b.index ∧ a ∉ m.removed.toList ∧ n.Controllable a ∧
      n.isSelfLoop a = .ok false ∧ n.constrainSameEvents a b = .ok true := by
  refine (Merge.exists_represents h.ordered found.nodup (fun _ _ => rfl) planned gone
    (by simp [Merge.empty])).imp_right ?_
  rintro ⟨a, before, left, stands⟩
  have first : a ∈ found.toList := before.subset (List.mem_cons_self ..)
  have less : compare a b = .lt := by simpa using found.increasing.sublist before
  exact ⟨a, first, Nat.compare_eq_lt.mp less, left, stands.controllable,
    (h.normal planned).loops a first left, stands.same⟩

/-- A constraint from an event to itself says nothing, and is removed. -/
theorem idle_of_loop (inside : b ∈ found.toList) (loop : n.isSelfLoop b = .ok true) :
    b ∈ m.removed.toList ∧ Merge.Idle n b := by
  have gone : b ∈ m.removed.toList := by
    by_contra left
    rw [(h.normal planned).loops b inside left] at loop
    cases loop
  refine ⟨gone, (h.idle_or_exists_left planned gone).resolve_right ?_⟩
  rintro ⟨a, ha, _, _, _, straight, same⟩
  -- what relates the same events would be from an event to itself as well
  obtain ⟨c, here⟩ := h.there a ha
  obtain ⟨d, here'⟩ := h.there b inside
  obtain ⟨starts, finishes, _⟩ :=
    (h.apart.constrainSameEvents_iff h.formed here here').mp same
  rw [h.apart.isSelfLoop_iff h.formed here', starts, finishes] at loop
  exact (h.apart.isSelfLoop_eq_false_iff h.formed here).mp straight loop

/-- A constraint of a class that is removed has an older one there that stays. -/
theorem exists_left (member : n.ClassOf found b b) (gone : b ∈ m.removed.toList) :
    ∃ a, n.ClassOf found b a ∧ a.index < b.index ∧ a ∉ m.removed.toList := by
  obtain ⟨inside, own⟩ := member
  rcases h.idle_or_exists_left planned gone with ⟨loop, _⟩ | ⟨a, ha, less, left, rest⟩
  · have straight := ((h.mergeable_iff inside inside).mp own).2.1
    rw [straight] at loop
    cases loop
  · exact ⟨a, ⟨ha, ((h.mergeable_iff ha inside).mpr rest).symm⟩, less, left⟩

/-- The oldest constraint of a class stays. -/
theorem left_of_oldest (member : n.ClassOf found a a)
    (oldest : ∀ b, n.ClassOf found a b → a.index ≤ b.index) : a ∉ m.removed.toList := by
  intro gone
  obtain ⟨b, other, less, _⟩ := h.exists_left planned member gone
  exact absurd (oldest b other) (Nat.not_le.mpr less)

/-- All others are removed. -/
theorem removed_of_older (ha : a ∈ found.toList) (member : n.ClassOf found a b)
    (less : a.index < b.index) : b ∈ m.removed.toList := by
  obtain ⟨hb, mergeable⟩ := member
  by_contra stays
  obtain ⟨x, ⟨hx, other⟩, before, left⟩ : ∃ x, n.ClassOf found b x ∧ x.index < b.index ∧
      x ∉ m.removed.toList := by
    by_cases gone : a ∈ m.removed.toList
    · obtain ⟨x, ⟨hx, other⟩, before, left⟩ :=
        h.exists_left planned ⟨ha, mergeable.trans mergeable.symm⟩ gone
      exact ⟨x, ⟨hx, mergeable.symm.trans other⟩, before.trans less, left⟩
    · exact ⟨a, ⟨ha, mergeable.symm⟩, less, gone⟩
  obtain ⟨⟨c, here, kind⟩, _, same⟩ := (h.mergeable_iff hx hb).mp other.symm
  have alone := found.rel_of_lt (h.normal planned).alone hx hb (Nat.compare_eq_lt.mpr before)
  exact (alone left stays).not_same here kind same

/-- A constraint that stays has the bounds of its class. -/
theorem tightest_of_left (member : n.ClassOf found a a) (left : a ∉ m.removed.toList)
    (here : n.temporal a = .ok c) : n.Tightest (n.ClassOf found a)
      ((m.revised a c).bounds.lower, (m.revised a c).bounds.upper) := by
  obtain ⟨inside, own⟩ := member
  obtain ⟨⟨_, there, kind⟩, straight, _⟩ := (h.mergeable_iff inside inside).mp own
  obtain rfl := Except.ok.inj (here.symm.trans there)
  obtain ⟨older, later, split⟩ := List.append_of_mem inside
  have increasing := found.increasing
  rw [split] at increasing
  have suffix : a :: later <:+ found.toList := ⟨older, split.symm⟩
  refine (Merge.tightest_of_plan h.ordered h.apart found.nodup (fun x _ y _ _ gone => ?_)
    (fun _ _ => rfl) planned suffix left here kind).congr fun y => ⟨?_, ?_⟩
  · simp [Merge.empty] at gone
  · rintro (rfl | ⟨after, same⟩)
    · exact ⟨inside, own⟩
    · have among := suffix.subset (List.mem_cons_of_mem a after)
      exact ⟨among, (h.mergeable_iff inside among).mpr ⟨⟨c, here, kind⟩, straight, same⟩⟩
  · rintro ⟨among, mergeable⟩
    have same := ((h.mergeable_iff inside among).mp mergeable).2.2
    rw [split] at among
    rcases List.mem_append.mp among with before | rest
    · -- an older one of the class would have removed it
      have less := (List.pairwise_append.mp increasing).2.2 y before a (List.mem_cons_self ..)
      exact absurd (h.removed_of_older planned (split ▸ List.mem_append_left _ before)
        ⟨inside, mergeable.symm⟩ (Nat.compare_eq_lt.mp less)) left
    · exact (List.mem_cons.mp rest).imp_right fun after => ⟨after, same⟩

/-- If merging goes through, nothing is in its way. -/
theorem not_unmergeable : ¬ n.Unmergeable found := by
  rintro (⟨b, c, inside, here, loop, harmful⟩ | ⟨a, member, bounds, tight, crossing⟩)
  · obtain ⟨_, _, d, there, idle⟩ := h.idle_of_loop planned inside
      ((h.apart.isSelfLoop_iff h.formed here).mpr loop)
    obtain rfl := Except.ok.inj (here.symm.trans there)
    exact harmful idle
  · obtain ⟨x, other, left⟩ : ∃ x, n.ClassOf found a x ∧ x ∉ m.removed.toList := by
      by_cases gone : a ∈ m.removed.toList
      · obtain ⟨x, other, _, left⟩ := h.exists_left planned member gone
        exact ⟨x, other, left⟩
      · exact ⟨a, member, gone⟩
    obtain ⟨d, here⟩ := h.there x other.1
    have own := h.tightest_of_left planned ⟨other.1, other.2.symm.trans other.2⟩ left here
    have fits : m.Fits n := (Merge.fits_of_plan h.ordered
      ⟨by simp [Merge.empty], by simp [Merge.empty]⟩ planned).1
    have passed := tight.crosses own (fun y => And.imp_right other.2.symm.trans) crossing
    exact absurd (fits.revised_ordered h.ordered here)
      (Bool.eq_false_iff.mp (Number.not_le_of_lt passed))

end Planned

/-- Merging is refused if and only if something is in its way. -/
theorem plan_eq_error (refused : Merge.plan n .empty found.toList = .error fault) :
    fault.category = .invalidType ∧ n.Unmergeable found := by
  obtain ⟨category, blocked⟩ := Merge.blocked_of_plan h.ordered h.formed h.there refused
  refine ⟨category, blocked.imp ?_ ?_⟩
  · rintro ⟨b, inside, loop, harmful⟩
    obtain ⟨c, here⟩ := h.there b inside
    refine ⟨b, c, inside, here, (h.apart.isSelfLoop_iff h.formed here).mp loop, fun idle => ?_⟩
    exact harmful ⟨loop, c, here, idle⟩
  · rintro ⟨a, inside, controllable, straight, others, bounds, all, tight, crossing⟩
    have mergeable {y : TemporalId} (hy : y ∈ found.toList)
        (same : n.constrainSameEvents a y = .ok true) : n.ClassOf found a y :=
      ⟨hy, (h.mergeable_iff inside hy).mpr ⟨controllable, straight, same⟩⟩
    have member : n.ClassOf found a a := by
      obtain ⟨c, here⟩ := h.there a inside
      refine mergeable inside ((h.apart.constrainSameEvents_iff h.formed here here).mpr ?_)
      exact ⟨rfl, rfl, rfl, Support.same_refl _⟩
    obtain ⟨more, wider⟩ := h.exists_tightest member
    refine ⟨a, member, more, wider, tight.crosses wider (fun y other => ?_) crossing⟩
    rcases all y other with rfl | ⟨hy, same⟩
    · exact member
    · exact mergeable hy same

end Classified

end Network

open Build

namespace Program

variable {p p₁ q : Program} {found : OrdSet TemporalId} {fault : Fault}

/-- The constraints that were read have been merged class by class. -/
structure Intersects (found : OrdSet TemporalId) (p q : Program) : Prop where
  /-- The oldest of a class has the bounds of the class. -/
  oldest : ∀ {a c}, p.network.ClassOf found a a →
    (∀ b, p.network.ClassOf found a b → a.index ≤ b.index) → p.network.temporal a = .ok c →
    ∃ bounds, p.network.Tightest (p.network.ClassOf found a) bounds ∧
      q.network.temporal a = .ok (c.rebound bounds)
  /-- The others of the class are gone. -/
  others : ∀ {a b}, p.network.ClassOf found a a → p.network.ClassOf found a b →
    a.index < b.index → q.Lacks b
  /-- So are those from an event to itself. -/
  loops : ∀ {b c}, b ∈ found.toList → p.network.temporal b = .ok c → c.start = c.finish → q.Lacks b
  /-- What is not for the executive is as it was. -/
  uncontrollable : ∀ {b c}, p.network.temporal b = .ok c → c.bounds.kind ≠ .controllable →
    q.network.temporal b = .ok c
  /-- So is what is alone in its class. -/
  alone : ∀ {a c}, p.network.ClassOf found a a → (∀ b, p.network.ClassOf found a b → b = a) →
    p.network.temporal a = .ok c → q.network.temporal a = .ok c

theorem Reachable.classified (reachable : p.Reachable .free) (apart : p.network.TellsApart)
    (viewed : constraints p = .ok found p₁) : p₁.network.Classified found := by
  obtain ⟨walk, looked, rfl⟩ := constraints_eq_ok_iff.mp viewed
  obtain ⟨_, _, there⟩ := has_of_view reachable looked
  have after := reachable.call .constraints trivial
  rw [Call.run, Attempt.after_of_ok viewed] at after
  have events := (looks_constraints.of_ok viewed).network.events
  refine ⟨after.valid.ordered, after.wellFormed, ⟨?_, ?_⟩, fun x member => ?_⟩
  · simp only [Network.event, events]
    exact apart.ids
  · simp only [Network.event, events]
    exact apart.names
  · obtain ⟨_, guarded⟩ := there x member
    obtain ⟨c, found, _⟩ := map_eq_ok_iff.mp guarded
    exact ⟨c, found⟩

/-- Merging that has been found out is done to the program. -/
theorem intersects_of_plan (classified : p.network.Classified found) {merge : Merge}
    (planned : Merge.plan p.network .empty found.toList = .ok merge) (fits : merge.Fits p.network)
    (narrows : Narrows merge.narrowed.entries p p₁) (removes : Removes merge.removed.toList p₁ q) :
    Intersects found p q.stale := by
  have gone {x : TemporalId} (member : x ∈ merge.removed.toList) : q.stale.Lacks x := by
    obtain ⟨c, here⟩ := fits.removed x member
    exact removes.lacks member (narrows.size ▸ lookup_index_lt here)
  have written {x : TemporalId} {c : TemporalConstraint} (here : p.network.temporal x = .ok c) :
      q.network.temporal x = .ok (merge.revised x c) :=
    removes.network.temporal (narrows.revised here)
  constructor
  · intro a c member oldest here
    have left := classified.left_of_oldest planned member oldest
    refine ⟨_, classified.tightest_of_left planned member left here, ?_⟩
    rw [← merge.revised_eq_rebound]
    exact written here
  · intro a b first other less
    exact gone (classified.removed_of_older planned first.1 other less)
  · intro b c inside here loop
    exact gone (classified.idle_of_loop planned inside
      ((classified.apart.isSelfLoop_iff classified.formed here).mpr loop)).1
  · intro b c here kind
    have kept : merge.narrowed.get? b = none := by
      cases value : merge.narrowed.get? b with
      | none => rfl
      | some bounds =>
        obtain ⟨d, there, controllable⟩ := Merge.controllable_of_plan (by simp [Merge.empty]) planned
          _ (OrdMap.get?_eq_some_iff.mp value)
        obtain rfl := Except.ok.inj (here.symm.trans there)
        exact absurd controllable kind
    have same := written here
    rwa [Merge.revised_of_get?_eq_none kept] at same
  · intro a c member alone here
    have left := classified.left_of_oldest planned member fun b other => by rw [alone b other]
    obtain ⟨_, _, ⟨x, d, other, there, lower⟩, ⟨y, f, other', there', upper⟩⟩ :=
      classified.tightest_of_left planned member left here
    obtain rfl := alone x other
    obtain rfl := alone y other'
    obtain rfl := Except.ok.inj (here.symm.trans there)
    obtain rfl := Except.ok.inj (here.symm.trans there')
    have same := written here
    rw [merge.revised_eq_rebound] at same
    dsimp only at lower upper
    rwa [← lower, ← upper] at same

/-- Merging computes exact intersections. Where the ids and the names of events tell them
apart and the constraints can be read, the program is refused as one of an invalid type if
and only if a constraint from an event to itself is not one of the executive with a lower
bound of zero, or the bounds of some class pass each other; then no bounds, no episodes and
none of the user's constraints have changed. If simplifying succeeds, the constraints have
been merged class by class. -/
theorem simplify_intersects_classes (reachable : p.Reachable .free)
    (apart : p.network.TellsApart) (viewed : constraints p = .ok found p₁) :
    ((∃ fault q, simplify p = .error fault q ∧ fault.category = .invalidType) ↔
      p₁.network.Unmergeable found) ∧
    (∀ fault q, simplify p = .error fault q → fault.category = .invalidType →
      q.network.temporals.map (·.bounds) = p.network.temporals.map (·.bounds) ∧
        q.network.episodes = p.network.episodes ∧ q.userConstraints = p.userConstraints) ∧
    ∀ u q, simplify p = .ok u q → Intersects found p₁ q := by
  have classified := reachable.classified apart viewed
  have unmerged {fault : Fault} {q : Program} (refused : simplify p = .error fault q)
      (category : fault.category = .invalidType) :
      q = p₁ ∧ Merge.plan p₁.network .empty found.toList = .error fault := by
    rcases simplify_eq_error refused with unread | ⟨_, viewed', unplanned⟩ |
      ⟨_, _, merge, viewed', planned, failed⟩
    · rw [viewed] at unread
      cases unread
    · obtain ⟨rfl, rfl⟩ := EStateM.Result.ok.inj (viewed.symm.trans viewed')
      exact ⟨rfl, unplanned⟩
    · -- narrowing is not refused, and removing for other reasons
      obtain ⟨_, fits, _⟩ := reachable.fits viewed' planned
      have narrowing := yields_narrowBounds merge.narrowed.nodup_keys fits.narrowed
      rcases failed with stopped | ⟨_, _, stopped⟩
      · exact absurd stopped narrowing.ne_error
      · rcases Attempt.refuses_each refuses_removeConstraint _ _ fault q stopped with other | other
        all_goals
          rw [category] at other
          cases other
  refine ⟨⟨?_, fun blocked => ?_⟩, fun fault q refused category => ?_, fun u q simplified => ?_⟩
  · rintro ⟨fault, q, refused, category⟩
    exact (classified.plan_eq_error (unmerged refused category).2).2
  · cases planned : Merge.plan p₁.network .empty found.toList with
    | ok merge => exact absurd blocked (classified.not_unmergeable planned)
    | error fault =>
      refine ⟨fault, p₁, ?_, (classified.plan_eq_error planned).1⟩
      refine Attempt.bind_eq_error_iff.mpr (.inr ⟨found, p₁, viewed, ?_⟩)
      exact Attempt.bind_eq_error_iff.mpr (.inl (Attempt.read_eq_error_iff.mpr ⟨planned, rfl⟩))
  · obtain ⟨rfl, _⟩ := unmerged refused category
    exact (looks_constraints.of_ok viewed).unchanged
  · obtain ⟨_, _, merge, p₂, p₃, viewed', planned, narrowed, removed, rfl⟩ :=
      simplify_eq_ok simplified
    obtain ⟨rfl, rfl⟩ := EStateM.Result.ok.inj (viewed.symm.trans viewed')
    obtain ⟨_, fits, _⟩ := reachable.fits viewed planned
    obtain ⟨_, _, narrowed', narrows⟩ := yields_narrowBounds merge.narrowed.nodup_keys fits.narrowed
    obtain ⟨_, rfl⟩ := EStateM.Result.ok.inj (narrowed.symm.trans narrowed')
    refine intersects_of_plan classified planned fits narrows (removes_each (fun id member => ?_)
      removed)
    obtain ⟨c, old⟩ := fits.removed id member
    exact ⟨_, narrows.revised old⟩

/-! ## Three constraints on two events

The first starts at zero, the second ends at one, and the third starts there. With them
come a constraint the other way round, and one from an event to itself.
-/

/-- The program with the constraints. -/
def stacked : Program :=
  (ofConfig {}).afterCalls [
    ⟨_, .addEvent⟩,
    ⟨_, .addEvent⟩,
    ⟨_, .addConstraint ⟨0⟩ ⟨1⟩ { lower := some .zero, upper := some .infinity }⟩,
    ⟨_, .addConstraint ⟨1⟩ ⟨0⟩ { lower := some (.infinite true), upper := some .zero }⟩,
    ⟨_, .addConstraint ⟨0⟩ ⟨1⟩ { lower := some (.infinite true), upper := some .one }⟩,
    ⟨_, .addConstraint ⟨0⟩ ⟨0⟩ { lower := some .zero, upper := some .infinity }⟩,
    ⟨_, .addConstraint ⟨0⟩ ⟨1⟩ { lower := some .one, upper := some .infinity }⟩]

/-- The first one is left, between one and one, and the one the other way round. -/
theorem simplify_intersects_classes_stacked :
    stacked.Reachable .free ∧ stacked.network.TellsApart ∧
    ∃ found p₁, constraints stacked = .ok found p₁ ∧
      ((∃ fault q, simplify stacked = .error fault q ∧ fault.category = .invalidType) ↔
        p₁.network.Unmergeable found) ∧
      (∀ fault q, simplify stacked = .error fault q → fault.category = .invalidType →
        q.network.temporals.map (·.bounds) = stacked.network.temporals.map (·.bounds) ∧
          q.network.episodes = stacked.network.episodes ∧
          q.userConstraints = stacked.userConstraints) ∧
      (∃ u q, simplify stacked = .ok u q) ∧
      ∀ u q, simplify stacked = .ok u q → Intersects found p₁ q := by
  have reachable : stacked.Reachable .free :=
    (reachable_of_config (by decide +kernel)).afterCalls fun _ _ => trivial
  have apart : stacked.network.TellsApart :=
    tellsApart_of_nodup (by decide +kernel) (by decide +kernel)
  obtain ⟨found, viewed⟩ := Attempt.exists_eq_ok_after constraints stacked (by decide +kernel)
  obtain ⟨u, simplified⟩ := Attempt.exists_eq_ok_after simplify stacked (by decide +kernel)
  obtain ⟨iff, refused, merged⟩ := simplify_intersects_classes reachable apart viewed
  exact ⟨reachable, apart, found, _, viewed, iff, refused, ⟨u, _, simplified⟩, merged⟩

/-- What is left to be read, with its bounds. -/
example : (limits (simplify.after stacked)) = some ([(⟨0⟩, ⟨1⟩, .one, .one),
    (⟨1⟩, ⟨0⟩, .infinite true, .zero)].map some) := by
  decide +kernel

end Program

end PlanNetwork
