/-
# Simplifying preserves schedules

After a simplification the plan has the constraints it had, without those that
were removed, and a new duration for every episode whose duration was one of
them. The others have the bounds that merging found. Merging takes events with
the same id or name for one, so this is about schedules that give such events
the same time. They meet what is left if and only if they met everything before,
and what is new says that an episode does not end before it starts.

A removed duration may have allowed for less. So a schedule that met everything
meets everything again if no episode that has lost its duration ends before it
starts.
-/

import PlanNetwork.Proofs.Program.Simplification

namespace PlanNetwork

open Network

variable {V : Vocabulary} {v : Valuation V} {p q : Program} {merge : Merge} {id : EpisodeId}
  {e e' : Episode} {t : Schedule} {walk : Traversal}

namespace Program

/-- The constraints of a program have been merged. -/
structure Simplifies (merge : Merge) (p q : Program) : Prop where
  /-- The plan is the same. -/
  plan : q.plan = p.plan
  /-- Ids name the same episodes. -/
  registry : q.registry = p.registry
  /-- The user's constraints are those that are left. -/
  user : ∀ id, id ∈ q.userConstraints.toList ↔
    id ∈ p.userConstraints.toList ∧ id ∉ merge.removed.toList
  /-- The events are the same. -/
  events : q.network.events = p.network.events
  /-- Constraints have the bounds that merging gives them. -/
  temporal : ∀ {id c}, p.network.temporal id = .ok c →
    q.network.temporal id = .ok (merge.revised id c)
  /-- Episodes have the constraints that are left. -/
  episode : ∀ {id e}, p.network.episode id = .ok e → ∃ e', q.network.episode id = .ok e' ∧
    Strips merge.removed.toList p.network q.network e e'
  /-- New durations are not shared. -/
  apart : ∀ {a b e f e' f'}, a ≠ b → p.network.episode a = .ok e → p.network.episode b = .ok f →
    q.network.episode a = .ok e' → q.network.episode b = .ok f' →
    e.duration ∈ merge.removed.toList → f.duration ∈ merge.removed.toList →
    e'.duration ≠ f'.duration

theorem Narrows.revised (h : Narrows merge.narrowed.entries p q) {id : TemporalId}
    {c : TemporalConstraint} (found : p.network.temporal id = .ok c) :
    q.network.temporal id = .ok (merge.revised id c) := by
  unfold Merge.revised
  cases value : merge.narrowed.get? id with
  | some bounds => exact h.inside _ (OrdMap.get?_eq_some_iff.mp value) c found
  | none =>
    refine (h.outside id fun member => ?_).trans found
    obtain ⟨⟨_, bounds⟩, entry, rfl⟩ := List.mem_map.mp member
    rw [OrdMap.get?_eq_some_iff.mpr entry] at value
    cases value

theorem simplifies_of_removes {mid last : Program} (narrows : Narrows merge.narrowed.entries p mid)
    (removes : Removes merge.removed.toList mid last) : Simplifies merge p last.stale := by
  have here {id : EpisodeId} {e : Episode} (found : p.network.episode id = .ok e) :
      mid.network.episode id = .ok e := by
    rwa [Network.episode, narrows.episodes]
  refine ⟨?_, ?_, fun id => ?_, ?_, fun found => ?_, fun found => ?_, ?_⟩
  · rw [stale, removes.same, narrows.same]
    rfl
  · rw [stale, removes.same, narrows.same]
    rfl
  · rw [stale, removes.user, narrows.same]
    rfl
  · exact removes.network.events.trans narrows.events
  · exact removes.network.temporal (narrows.revised found)
  · obtain ⟨e', found', strips⟩ := removes.network.episode (here found)
    exact ⟨e', found', strips.same, strips.constraints, strips.kept, narrows.size ▸ strips.reset⟩
  · exact fun differ ea fb => removes.network.apart differ (here ea) (here fb)

namespace Simplifies

section Episode

variable (h : Simplifies merge p q) (found : p.network.episode id = .ok e)
  (found' : q.network.episode id = .ok e')

include h found found'

theorem strips : Strips merge.removed.toList p.network q.network e e' := by
  obtain ⟨_, there, strips⟩ := h.episode found
  obtain rfl := Except.ok.inj (found'.symm.trans there)
  exact strips

/-- An episode has another duration if and only if its own has been removed. -/
theorem mem_removed_iff (old : ∃ c, p.network.temporal e.duration = .ok c) :
    e.duration ∈ merge.removed.toList ↔ e'.duration ≠ e.duration := by
  have strips := h.strips found found'
  constructor
  · intro gone same
    obtain ⟨c, there⟩ := old
    have older := lookup_index_lt there
    have newer := (strips.reset gone).1
    rw [same] at newer
    omega
  · intro differ
    by_contra left
    exact differ (strips.kept left)

theorem mem_ownConstraints_iff {c : TemporalId} :
    c ∈ q.network.ownConstraints id ↔
      c ∈ p.network.ownConstraints id ∧ c ∉ merge.removed.toList ∨
        e.duration ∈ merge.removed.toList ∧ c = e'.duration := by
  have strips := h.strips found found'
  rw [Network.mem_ownConstraints_iff found, Network.mem_ownConstraints_iff found',
    strips.constraints]
  by_cases gone : e.duration ∈ merge.removed.toList
  · have : c = e.duration → c ∈ merge.removed.toList := fun same => same ▸ gone
    tauto
  · have : c = e.duration → c ∉ merge.removed.toList := fun same => same ▸ gone
    rw [strips.kept gone]
    tauto

end Episode

/-- The same episodes are inside the plan. -/
theorem unfoldingOf_eq (h : Simplifies merge p q)
    (there : ∀ id ∈ p.network.unfoldingOf p.plan, ∃ e, p.network.episode id = .ok e) :
    q.network.unfoldingOf q.plan = p.network.unfoldingOf p.plan := by
  rw [h.plan]
  generalize p.plan = plan at there ⊢
  cases plan with
  | none => rfl
  | some plan =>
    refine Network.unfoldingTo_congr fun id member => ?_
    obtain ⟨e, found⟩ := there id member
    obtain ⟨e', found', strips⟩ := h.episode found
    exact Network.internalEpisodes_congr found found' (by rw [strips.same])

/-- No two episodes have a constraint in common, for new durations are behind all
that there were. -/
theorem walkable (h : Simplifies merge p q) {ids : List EpisodeId}
    (walk : p.network.Walkable ids) (there : ∀ id ∈ ids, ∀ c ∈ p.network.ownConstraints id,
      ∃ d, p.network.temporal c = .ok d) : q.network.Walkable ids := by
  refine ⟨fun id member => ?_, ?_⟩
  · obtain ⟨e, found⟩ := walk.there id member
    obtain ⟨e', found', _⟩ := h.episode found
    exact ⟨e', found'⟩
  refine walk.apart.imp_of_mem fun {a b} ha hb apart c own own' => ?_
  obtain ⟨e, ea⟩ := walk.there a ha
  obtain ⟨f, fb⟩ := walk.there b hb
  obtain ⟨e', ea', eStrips⟩ := h.episode ea
  obtain ⟨f', fb', fStrips⟩ := h.episode fb
  have older {x : EpisodeId} (member : x ∈ ids) {c : TemporalId}
      (own : c ∈ p.network.ownConstraints x) : c.index < p.network.temporals.size := by
    obtain ⟨d, found⟩ := there x member c own
    exact lookup_index_lt found
  rcases (h.mem_ownConstraints_iff ea ea').mp own with ⟨old, _⟩ | ⟨eGone, rfl⟩
  · rcases (h.mem_ownConstraints_iff fb fb').mp own' with ⟨old', _⟩ | ⟨fGone, rfl⟩
    · exact apart c old old'
    · exact absurd (older ha old) (Nat.not_lt.mpr (fStrips.reset fGone).1)
  · rcases (h.mem_ownConstraints_iff fb fb').mp own' with ⟨old', _⟩ | ⟨fGone, same⟩
    · exact absurd (older hb old') (Nat.not_lt.mpr (eStrips.reset eGone).1)
    · exact h.apart (Traversal.ne_of_apart ea apart).symm ea fb ea' fb' eGone fGone same

theorem registered (h : Simplifies merge p q) (known : p.Registered id) : q.Registered id := by
  obtain ⟨e, found, named⟩ := known
  obtain ⟨e', found', strips⟩ := h.episode found
  refine ⟨e', found', ?_⟩
  rw [h.registry, strips.same]
  exact named

theorem derived (h : Simplifies merge p q) {id : TemporalId} (derived : p.network.Derived id) :
    q.network.Derived id := by
  obtain ⟨c, found, both⟩ := derived
  refine ⟨_, h.temporal found, ?_⟩
  rw [endpointSupport_congr h.events]
  unfold Merge.revised
  split <;> exact both

/-- The constraints after the simplification are those that are left, and the new
durations. -/
theorem mem_constraints_iff (h : Simplifies merge p q) {ids : List EpisodeId} {walk' : Traversal}
    (there : ∀ id ∈ ids, ∃ e, p.network.episode id = .ok e)
    (before : Traversal.Met p.network ids .empty walk)
    (after : Traversal.Met q.network ids .empty walk') (c : TemporalId) :
    c ∈ (walk'.constraints.union q.userConstraints).toList ↔
      c ∈ (walk.constraints.union p.userConstraints).toList ∧ c ∉ merge.removed.toList ∨
        ∃ id ∈ ids, ∃ e e', p.network.episode id = .ok e ∧ q.network.episode id = .ok e' ∧
          e.duration ∈ merge.removed.toList ∧ c = e'.duration := by
  have own : (∃ id ∈ ids, c ∈ q.network.ownConstraints id) ↔
      (∃ id ∈ ids, c ∈ p.network.ownConstraints id) ∧ c ∉ merge.removed.toList ∨
        ∃ id ∈ ids, ∃ e e', p.network.episode id = .ok e ∧ q.network.episode id = .ok e' ∧
          e.duration ∈ merge.removed.toList ∧ c = e'.duration := by
    constructor
    · rintro ⟨id, member, own⟩
      obtain ⟨e, found⟩ := there id member
      obtain ⟨e', found', _⟩ := h.episode found
      rcases (h.mem_ownConstraints_iff found found').mp own with ⟨old, left⟩ | ⟨gone, new⟩
      · exact .inl ⟨⟨id, member, old⟩, left⟩
      · exact .inr ⟨id, member, e, e', found, found', gone, new⟩
    · rintro (⟨⟨id, member, old⟩, left⟩ | ⟨id, member, e, e', found, found', gone, new⟩)
      · obtain ⟨e, found⟩ := there id member
        obtain ⟨e', found', _⟩ := h.episode found
        exact ⟨id, member, (h.mem_ownConstraints_iff found found').mpr (.inl ⟨old, left⟩)⟩
      · exact ⟨id, member, (h.mem_ownConstraints_iff found found').mpr (.inr ⟨gone, new⟩)⟩
  rw [OrdSet.mem_union_iff, OrdSet.mem_union_iff, after.constraints, before.constraints, own,
    h.user]
  simp only [Traversal.empty, OrdSet.not_mem_empty, false_or]
  rw [or_and_right, or_right_comm]

/-- Of a new duration, where it applies, nothing is asked but that the episode does
not end before it starts. -/
theorem met_iff_of_unconstrains {n : Network} {id : TemporalId} {start finish : EventId}
    {c : TemporalConstraint} (free : n.Unconstrains id start finish)
    (found : n.temporal id = .ok c) :
    c.Met v t ↔ (c.guard.support.Holds v → t start ≤ t finish) := by
  obtain ⟨_, found', rfl, rfl, bounds⟩ := free
  obtain rfl := Except.ok.inj (found.symm.trans found')
  unfold TemporalConstraint.Met
  rw [bounds, Bounds.allow_precedence_infinity, sub_nonneg]
  simp [Bounds.precedence]

theorem meets_iff (h : Simplifies merge p q) {found found' : OrdSet TemporalId}
    {ids : List EpisodeId} (there : ∀ c ∈ found.toList, ∃ d, p.network.temporal c = .ok d)
    (lasts : ∀ id ∈ ids, ∀ e, p.network.episode id = .ok e → e.duration ∈ found.toList)
    (members : ∀ c, c ∈ found'.toList ↔ c ∈ found.toList ∧ c ∉ merge.removed.toList ∨
      ∃ id ∈ ids, ∃ e e', p.network.episode id = .ok e ∧ q.network.episode id = .ok e' ∧
        e.duration ∈ merge.removed.toList ∧ c = e'.duration) :
    q.network.Meets found' v t ↔ merge.Met p.network v t found.toList ∧
      ∀ id ∈ ids, ∀ e e' c, p.network.episode id = .ok e → q.network.episode id = .ok e' →
        e'.duration ≠ e.duration → q.network.temporal e'.duration = .ok c →
        c.guard.support.Holds v → t e.start ≤ t e.finish := by
  have renewed {id : EpisodeId} (member : id ∈ ids) {e e' : Episode}
      (ea : p.network.episode id = .ok e) (ea' : q.network.episode id = .ok e') :
      e.duration ∈ merge.removed.toList ↔ e'.duration ≠ e.duration :=
    h.mem_removed_iff ea ea' (there _ (lasts id member e ea))
  have free {id : EpisodeId} {e e' : Episode} (ea : p.network.episode id = .ok e)
      (ea' : q.network.episode id = .ok e') (gone : e.duration ∈ merge.removed.toList) :
      q.network.Unconstrains e'.duration e.start e.finish :=
    ((h.strips ea ea').reset gone).2
  constructor
  · intro meets
    refine ⟨fun c member left d old => ?_, fun id member e e' c ea ea' differ new holds => ?_⟩
    · exact meets c ((members c).mpr (.inl ⟨member, left⟩)) _ (h.temporal old)
    · have gone := (renewed member ea ea').mpr differ
      have met := meets _ ((members _).mpr (.inr ⟨id, member, e, e', ea, ea', gone, rfl⟩)) c new
      exact (met_iff_of_unconstrains (free ea ea' gone) new).mp met holds
  · rintro ⟨left, rest⟩ c member d found
    rcases (members c).mp member with ⟨old, stays⟩ | ⟨id, inside, e, e', ea, ea', gone, rfl⟩
    · obtain ⟨d', old'⟩ := there c old
      obtain rfl := Except.ok.inj ((h.temporal old').symm.trans found)
      exact left c old stays d' old'
    · rw [met_iff_of_unconstrains (free ea ea' gone) found]
      exact rest id inside e e' d ea ea' ((renewed inside ea ea').mp gone) found

end Simplifies

end Program

open Build

/-- A simplification that succeeds has done what merging found out. -/
theorem Program.Reachable.simplifies (reachable : p.Reachable .free) {u : Unit}
    (simplified : simplify p = .ok u q) : ∃ found p₁ merge, constraints p = .ok found p₁ ∧
      Merge.plan p₁.network .empty found.toList = .ok merge ∧ Simplifies merge p₁ q ∧
      q.traversal = none := by
  obtain ⟨found, p₁, merge, p₂, p₃, viewed, planned, narrowed, removed, rfl⟩ :=
    simplify_eq_ok simplified
  obtain ⟨_, fits, _⟩ := reachable.fits viewed planned
  obtain ⟨_, _, narrowed', narrows⟩ := yields_narrowBounds merge.narrowed.nodup_keys fits.narrowed
  obtain ⟨_, rfl⟩ := EStateM.Result.ok.inj (narrowed.symm.trans narrowed')
  have removes := removes_each (fun id member => by
    obtain ⟨c, old⟩ := fits.removed id member
    exact ⟨_, narrows.revised old⟩) removed
  exact ⟨found, p₁, merge, viewed, planned, simplifies_of_removes narrows removes, rfl⟩

/-- If what was kept is what a traversal would meet, so is what is read. -/
theorem Program.Reachable.current (reachable : p.Reachable .free)
    (own : ∀ t, p.traversal = some t →
      Traversal.collect p.network p.plan p.userConstraints = .ok t)
    (viewed : view p = .ok walk q) : q.Current walk := by
  rcases view_eq_ok viewed with ⟨cached, rfl⟩ | ⟨_, current⟩
  · obtain ⟨waiting, reached⟩ := reachable
    have coherent := reached.coherent cached
    exact ⟨cached, own walk cached, coherent.derived, coherent.registered⟩
  · exact current

/-- A program that has been simplified can be read again. -/
theorem Program.Simplifies.exists_view (h : Simplifies merge p q) (stale : q.traversal = none)
    (current : p.Current walk) (there : ∀ c ∈ (walk.constraints.union p.userConstraints).toList,
      ∃ d, p.network.temporal c = .ok d) :
    ∃ walk' r, view q = .ok walk' r ∧ Same q.network r.network ∧
      r.userConstraints = q.userConstraints ∧
      Traversal.Met q.network (p.network.unfoldingOf p.plan) .empty walk' := by
  obtain ⟨walks, met⟩ := Traversal.met_of_collect current.collected
  have inside := h.unfoldingOf_eq walks.there
  have walks' : q.network.Walkable (q.network.unfoldingOf q.plan) := by
    rw [inside]
    refine h.walkable walks fun id member c own => there c ?_
    exact OrdSet.mem_union_iff.mpr (.inl ((met.constraints c).mpr (.inr ⟨id, member, own⟩)))
  have user : ∀ id ∈ q.userConstraints.toList, q.network.Derived id := fun id member =>
    h.derived (current.derived id ((h.user id).mp member).1)
  obtain ⟨walk', collected⟩ := Traversal.exists_collect walks' fun id member => by
    obtain ⟨c, found, _⟩ := user id member
    exact ⟨c, found⟩
  have met' := (Traversal.met_of_collect collected).2
  rw [inside] at met'
  obtain ⟨_, r, viewed, rfl, same, network⟩ := yields_view stale collected (fun id member => by
    rw [met'.episodes, ← met.episodes] at member
    exact h.registered (current.registered id member)) user
  exact ⟨_, r, viewed, network, by rw [same], met'⟩

/-- Simplifying preserves schedules. If a simplification succeeds, the constraints
can be read before and after. A schedule that gives the same time to events with
the same id or name meets the constraints after it if and only if it meets those
before it, and no episode that has got a new duration, where that applies, ends
before it starts. The last traversal, if it is kept, has to be one of the program
itself, as it always is outside of fragments. -/
theorem Program.simplify_preserves_schedules (reachable : p.Reachable .free)
    (own : ∀ t, p.traversal = some t →
      Traversal.collect p.network p.plan p.userConstraints = .ok t)
    {u : Unit} (simplified : simplify p = .ok u q) :
    ∃ walk found p₁ found' q₁, constraints p = .ok found p₁ ∧ p₁.traversal = some walk ∧
      constraints q = .ok found' q₁ ∧
      ∀ (V : Vocabulary) (v : Valuation V) (t : Schedule), p₁.network.Agrees t →
        (q₁.network.Meets found' v t ↔ p₁.network.Meets found v t ∧
          ∀ id ∈ walk.episodes.toList, ∀ e e' c, p₁.network.episode id = .ok e →
            q₁.network.episode id = .ok e' → e'.duration ≠ e.duration →
            q₁.network.temporal e'.duration = .ok c → c.guard.support.Holds v →
            t e.start ≤ t e.finish) := by
  obtain ⟨found, p₁, merge, viewed, planned, simplifies, stale⟩ := reachable.simplifies simplified
  obtain ⟨ordered, _, there⟩ := reachable.fits viewed planned
  obtain ⟨walk, looked, rfl⟩ := constraints_eq_ok_iff.mp viewed
  have current := reachable.current own looked
  obtain ⟨walks, met⟩ := Traversal.met_of_collect current.collected
  obtain ⟨walk', q₁, looked', same, user, met'⟩ := simplifies.exists_view stale current there
  refine ⟨walk, _, p₁, _, q₁, viewed, current.cached,
    constraints_eq_ok_iff.mpr ⟨walk', looked', rfl⟩, fun V v t agrees => ?_⟩
  have merged : merge.Met p₁.network v t (walk.constraints.union p₁.userConstraints).toList ↔
      p₁.network.Meets (walk.constraints.union p₁.userConstraints) v t := by
    rw [Merge.met_iff_of_plan ordered agrees (OrdSet.nodup _) (fun _ _ => rfl) planned,
      Merge.met_of_free fun _ _ => rfl]
    simp [Merge.empty, Meets]
  have temporal {id : TemporalId} {c : TemporalConstraint} : q₁.network.temporal id = .ok c ↔
      q.network.temporal id = .ok c := same.temporal_iff
  have episode {id : EpisodeId} {e : Episode} : q₁.network.episode id = .ok e ↔
      q.network.episode id = .ok e := same.episode_iff
  have inside (id : EpisodeId) : id ∈ walk.episodes.toList ↔
      id ∈ p₁.network.unfoldingOf p₁.plan := by
    simp [met.episodes, Traversal.empty]
  have members := simplifies.mem_constraints_iff walks.there met met'
  rw [← user] at members
  have after := simplifies.meets_iff (v := v) (t := t) there ?_ members
  · simpa only [Meets, temporal, episode, inside, merged] using after
  · intro id member e ea
    rw [OrdSet.mem_union_iff, met.constraints]
    refine .inl (.inr ⟨id, member, ?_⟩)
    rw [Network.mem_ownConstraints_iff ea]
    exact .inl rfl

/-! ## Two events that count as one

Two events have the same name. From the first there is a constraint to a third
event that allows everything, and from the second an episode that goes backwards.
-/

/-- The events and bounds of a constraint that the executive always has to meet. -/
def TemporalConstraint.limits (c : TemporalConstraint) :
    Option (EventId × EventId × Number × Number) :=
  if c.bounds.kind = .controllable ∧ c.guard.support.same .always then
    some (c.start, c.finish, c.bounds.lower, c.bounds.upper)
  else none

theorem TemporalConstraint.met_of_limits {c : TemporalConstraint} {start finish : EventId}
    {bounds : Number × Number} (h : c.limits = some (start, finish, bounds)) :
    c.Met v t ↔ Allows bounds (t finish - t start) := by
  simp only [limits, Option.ite_none_right_eq_some, Option.some.injEq, Prod.mk.injEq] at h
  obtain ⟨⟨kind, always⟩, rfl, rfl, rfl⟩ := h
  have holds : c.guard.support.Holds v :=
    (Support.holds_congr v always).mpr (Support.holds_always v)
  exact ⟨fun met => met kind holds, fun allows _ _ => allows⟩

/-- The limits that a read of the constraints finds. -/
def Program.limits (p : Program) : Option (List (Option (EventId × EventId × Number × Number))) :=
  match constraints p with
  | .ok found q => some (found.toList.map fun id => q.network.temporals[id.index]?.bind (·.limits))
  | .error .. => none

theorem Program.meets_of_limits {limits : List (EventId × EventId × Number × Number)}
    (h : p.limits = some (limits.map some)) :
    ∃ found q, constraints p = .ok found q ∧ ∀ (V : Vocabulary) (v : Valuation V) (t : Schedule),
      q.network.Meets found v t ↔ ∀ l ∈ limits, Allows l.2.2 (t l.2.1 - t l.1) := by
  unfold Program.limits at h
  cases viewed : constraints p with
  | error fault q =>
    rw [viewed] at h
    cases h
  | ok found q =>
    rw [viewed] at h
    have lists := Option.some.inj h
    refine ⟨found, q, rfl, fun V v t => ⟨fun meets l member => ?_, fun all id member c here => ?_⟩⟩
    · have : some l ∈ limits.map some := List.mem_map_of_mem member
      rw [← lists] at this
      obtain ⟨id, inside, value⟩ := List.mem_map.mp this
      obtain ⟨c, here, value⟩ := Option.bind_eq_some_iff.mp value
      have met := meets id inside c (lookup_eq_ok_iff.mpr here)
      exact (TemporalConstraint.met_of_limits value).mp met
    · have : q.network.temporals[id.index]?.bind (·.limits) ∈ limits.map some := by
        rw [← lists]
        exact List.mem_map_of_mem member
      obtain ⟨l, inside, value⟩ := List.mem_map.mp this
      rw [lookup_eq_ok_iff.mp here] at value
      exact (TemporalConstraint.met_of_limits value.symm).mpr (all l inside)

/-- The program with the two events. -/
def Program.doubled : Program :=
  (Program.ofConfig {}).afterCalls [
    ⟨_, .allocate "Event"⟩,
    ⟨_, .edit (.addEventAs ⟨1, "Event_1", "s"⟩)⟩,
    ⟨_, .allocate "Event"⟩,
    ⟨_, .edit (.addEventAs ⟨2, "Event_2", "s"⟩)⟩,
    ⟨_, .addEvent⟩,
    ⟨_, .addConstraint ⟨0⟩ ⟨2⟩ { lower := some (.infinite true), upper := some .infinity }⟩,
    ⟨_, .addEpisode
      { start := some ⟨1⟩
        finish := some ⟨2⟩
        duration := some { lower := some (.infinite true), upper := some .zero } }⟩,
    ⟨_, .setPlan (.episode ⟨0⟩)⟩]

theorem Program.reached_doubled : Reached .free doubled [] :=
  (reached_of_config (by decide +kernel)).afterCalls fun _ _ => trivial

theorem Program.limits_doubled : doubled.limits = some ([(⟨0⟩, ⟨2⟩, .infinite true, .infinity),
    (⟨1⟩, ⟨2⟩, .infinite true, .zero)].map some) := by
  decide +kernel

theorem Program.limits_simplify_doubled : (simplify.after doubled).limits =
    some ([(⟨0⟩, ⟨2⟩, .infinite true, .zero), (⟨1⟩, ⟨2⟩, .zero, .infinity)].map some) := by
  decide +kernel

theorem Program.simplify_doubled : ∃ u, simplify doubled = .ok u (simplify.after doubled) :=
  Attempt.exists_eq_ok_after _ _ (by decide +kernel)

/-- The episode gets a new duration, and its old one is merged into the constraint
from the other event. -/
theorem Program.simplify_preserves_schedules_doubled :
    doubled.Reachable .free ∧ (∀ t, doubled.traversal = some t →
      Traversal.collect doubled.network doubled.plan doubled.userConstraints = .ok t) ∧
    ∃ u q, simplify doubled = .ok u q ∧
      ∃ walk found p₁ found' q₁, constraints doubled = .ok found p₁ ∧ p₁.traversal = some walk ∧
        constraints q = .ok found' q₁ ∧
        ∀ (V : Vocabulary) (v : Valuation V) (t : Schedule), p₁.network.Agrees t →
          (q₁.network.Meets found' v t ↔ p₁.network.Meets found v t ∧
            ∀ id ∈ walk.episodes.toList, ∀ e e' c, p₁.network.episode id = .ok e →
              q₁.network.episode id = .ok e' → e'.duration ≠ e.duration →
              q₁.network.temporal e'.duration = .ok c → c.guard.support.Holds v →
              t e.start ≤ t e.finish) := by
  have reachable : doubled.Reachable .free := ⟨[], reached_doubled⟩
  have own (t : Traversal) (cached : doubled.traversal = some t) :=
    reached_doubled.collected_outside cached
  obtain ⟨u, simplified⟩ := simplify_doubled
  exact ⟨reachable, own, u, _, simplified, simplify_preserves_schedules reachable own simplified⟩

/-- Schedules that meet everything are lost, and others are won. An episode that
ended before it started does not do so any more. The other event with the same
name, though, may be at another time, and no longer is anything asked of the
event of the episode but that the episode does not go backwards. -/
theorem Program.simplify_moves_schedules_doubled :
    doubled.Reachable .free ∧ ∃ u q found p₁ found' q₁, simplify doubled = .ok u q ∧
      constraints doubled = .ok found p₁ ∧ constraints q = .ok found' q₁ ∧
      ∃ (V : Vocabulary) (v : Valuation V) (lost won : Schedule),
        (p₁.network.Meets found v lost ∧ ¬ q₁.network.Meets found' v lost) ∧
          q₁.network.Meets found' v won ∧ ¬ p₁.network.Meets found v won := by
  obtain ⟨u, simplified⟩ := simplify_doubled
  obtain ⟨found, p₁, viewed, before⟩ := meets_of_limits limits_doubled
  obtain ⟨found', q₁, viewed', after⟩ := meets_of_limits limits_simplify_doubled
  let V : Vocabulary := ⟨fun _ => [""], by simp, by simp⟩
  let v : Valuation V := ⟨fun _ => "", fun _ => List.mem_singleton_self _⟩
  let lost : Schedule := fun id => if id = ⟨2⟩ then 0 else 1
  let won : Schedule := fun id => if id = ⟨1⟩ then -1 else 0
  refine ⟨⟨[], reached_doubled⟩, u, _, found, p₁, found', q₁, simplified, viewed, viewed',
    V, v, lost, won, ?_⟩
  simp only [before, after]
  constructor <;> norm_num [lost, won, Allows, Number.atMost_zero, Number.atLeast_zero,
    Number.atLeast_infinity, Number.atMost_negInfinity]

end PlanNetwork
