/-
# What simplifying does to a program

Merging has been found out before anything is written. Then bounds are narrowed,
which cannot be refused, and constraints are removed one after the other. A
removal is refused for an episode that would need a new duration and cannot have
one. What was written before that stays written.
-/

import PlanNetwork.Proofs.Network.Detachment
import PlanNetwork.Proofs.Program.Coherence
import PlanNetwork.Proofs.Program.Merging

namespace PlanNetwork

open Network

variable {p q r : Program} {fault : Fault}

namespace Program

/-- Some constraints have got other bounds. -/
structure Narrows (entries : List (TemporalId × (Number × Number))) (p q : Program) : Prop where
  /-- Nothing else has changed in the program. -/
  same : q = p.withNetwork q.network
  /-- The events are the same. -/
  events : q.network.events = p.network.events
  /-- The episodes are the same. -/
  episodes : q.network.episodes = p.network.episodes
  /-- There are as many temporal constraints as before. -/
  size : q.network.temporals.size = p.network.temporals.size
  /-- Those of the list have the bounds of the list. -/
  inside : ∀ entry ∈ entries, ∀ c, p.network.temporal entry.1 = .ok c →
    q.network.temporal entry.1 = .ok (c.rebound entry.2)
  /-- Others are what they were. -/
  outside : ∀ id, id ∉ entries.map Prod.fst → q.network.temporal id = p.network.temporal id

/-- Some constraints have been removed. -/
structure Removes (gone : List TemporalId) (p q : Program) : Prop where
  /-- Nothing else has changed in the program. -/
  same : q = { p with
    network := q.network
    userConstraints := q.userConstraints
    traversal := q.traversal }
  /-- They are not the user's. -/
  user : ∀ id, id ∈ q.userConstraints.toList ↔ id ∈ p.userConstraints.toList ∧ id ∉ gone
  /-- They are not those of episodes. -/
  network : p.network.Detaches gone q.network

/-- The constraint is not the user's, nor does an episode have it. -/
def Lacks (p : Program) (c : TemporalId) : Prop :=
  c ∉ p.userConstraints.toList ∧
    ∀ id e, p.network.episode id = .ok e → c ∉ e.constraints.toList ∧ e.duration ≠ c

/-- What has been removed is nowhere. -/
theorem Removes.lacks {gone : List TemporalId} {x : TemporalId} (removes : Removes gone p q)
    (member : x ∈ gone) (there : x.index < p.network.temporals.size) : q.Lacks x := by
  refine ⟨fun left => ((removes.user x).mp left).2 member, fun id e' found' => ?_⟩
  obtain ⟨e, found, strips⟩ := removes.network.exists_episode found'
  refine ⟨fun left => ((strips.constraints x).mp left).2 member, ?_⟩
  rintro rfl
  by_cases taken : e.duration ∈ gone
  · exact absurd there (Nat.not_lt.mpr (strips.reset taken).1)
  · rw [strips.kept taken] at member
    exact taken member

theorem Removes.trans {gone more : List TemporalId} (first : Removes gone p q)
    (second : Removes more q r) (there : ∀ id ∈ more, id.index < p.network.temporals.size) :
    Removes (gone ++ more) p r := by
  refine ⟨?_, fun id => ?_, first.network.trans second.network there⟩
  · rw [second.same, first.same]
  · rw [second.user, first.user, List.mem_append, not_or, and_assoc]

end Program

namespace Build

open Program

theorem yields_narrowBounds {entries : List (TemporalId × (Number × Number))}
    (nodup : (entries.map Prod.fst).Nodup) (fits : ∀ entry ∈ entries,
      (∃ c, p.network.temporal entry.1 = .ok c) ∧ entry.2.1.le entry.2.2 = true) :
    (Attempt.each narrowBounds entries).Yields p fun _ q => Narrows entries p q := by
  induction entries generalizing p with
  | nil => exact Attempt.yields_pure ⟨rfl, rfl, rfl, rfl, by simp, fun _ _ => rfl⟩
  | cons entry rest ih =>
    obtain ⟨new, nodup⟩ := List.nodup_cons.mp nodup
    obtain ⟨⟨there, ordered⟩, fits⟩ := List.forall_mem_cons.mp fits
    let n := p.network.modifyTemporal entry.1 (·.rebound entry.2)
    have written : narrowBounds entry p = .ok () (p.withNetwork n) :=
      Attempt.focus_eq_ok_iff.mpr ⟨n, Edit.setBounds_eq_ok_iff.mpr ⟨there, ordered, rfl⟩, rfl⟩
    have here {c : TemporalConstraint} (found : p.network.temporal entry.1 = .ok c) :
        n.temporal entry.1 = .ok (c.rebound entry.2) :=
      lookup_eq_ok_iff.mpr (getElem?_modify_self _ (lookup_eq_ok_iff.mp found))
    have others {id : TemporalId} (differ : entry.1 ≠ id) : n.temporal id = p.network.temporal id :=
      lookup_modify_of_ne differ
    have apart {other : TemporalId × (Number × Number)} (member : other ∈ rest) :
        entry.1 ≠ other.1 :=
      fun same => new (same ▸ List.mem_map_of_mem member)
    obtain ⟨_, q, done, narrows⟩ := ih (p := p.withNetwork n) nodup fun other member =>
      (others (apart member)).symm ▸ fits other member
    refine ⟨(), q, Attempt.bind_eq_ok_iff.mpr ⟨(), _, written, done⟩, narrows.same, narrows.events,
      narrows.episodes, narrows.size.trans (Array.size_modify ..), ?_, fun id outside => ?_⟩
    · refine List.forall_mem_cons.mpr ⟨fun c found => ?_, fun other member c found => ?_⟩
      · rw [narrows.outside _ new]
        exact here found
      · exact narrows.inside other member c ((others (apart member)).trans found)
    · obtain ⟨differ, outside⟩ := not_or.mp (List.mem_cons.not.mp outside)
      rw [narrows.outside id outside]
      exact others (Ne.symm differ)

theorem removes_of_removeConstraint {id : TemporalId} {u : Unit}
    (done : removeConstraint id p = .ok u q) : Removes [id] p q := by
  obtain ⟨_, _, detached, dropped⟩ := Attempt.bind_eq_ok_iff.mp done
  obtain ⟨m, inner, rfl⟩ := Attempt.focus_eq_ok_iff.mp detached
  obtain rfl := Attempt.modify_eq_ok_iff.mp dropped
  exact ⟨rfl, fun other => by simp [withNetwork], Edit.detaches_of_atomically inner⟩

theorem refuses_removeConstraint (id : TemporalId) :
    (removeConstraint id).Refuses Fault.OfPlace :=
  (Edit.refuses_atomically (Edit.refuses_detachTemporal id)).focus.bind fun _ =>
    Attempt.refuses_modify _

theorem removes_each {gone : List TemporalId} {u : Unit}
    (there : ∀ id ∈ gone, ∃ c, p.network.temporal id = .ok c)
    (done : Attempt.each removeConstraint gone p = .ok u q) : Removes gone p q := by
  induction gone generalizing p with
  | nil =>
    obtain ⟨_, rfl⟩ := Attempt.pure_eq_ok_iff.mp done
    exact ⟨rfl, by simp, .refl _⟩
  | cons id rest ih =>
    obtain ⟨_, k, first, later⟩ := Attempt.bind_eq_ok_iff.mp done
    have here := removes_of_removeConstraint first
    have others := (List.forall_mem_cons.mp there).2
    refine here.trans (ih (fun other member => ?_) later) fun other member => ?_
    · obtain ⟨c, found⟩ := others other member
      exact ⟨c, here.network.temporal found⟩
    · obtain ⟨c, found⟩ := others other member
      exact lookup_index_lt found

/-- Removing constraints is refused only for an episode that cannot have a new
duration. -/
theorem exists_not_canLast_of_removeConstraint {gone : List TemporalId}
    (refused : Attempt.each removeConstraint gone p = .error fault q) :
    ∃ id e, p.network.episode id = .ok e ∧ ¬ p.network.CanLast e.start e.finish := by
  induction gone generalizing p with
  | nil => cases refused
  | cons id rest ih =>
    rcases Attempt.bind_eq_error_iff.mp refused with failed | ⟨_, k, first, later⟩
    · rcases Attempt.bind_eq_error_iff.mp failed with stopped | ⟨_, _, _, ⟨⟩⟩
      obtain ⟨_, inner, _⟩ := Attempt.focus_eq_error_iff.mp stopped
      obtain ⟨other, e, found, _, unable⟩ := Edit.exists_not_canLast_of_atomically inner
      exact ⟨other, e, found, unable⟩
    · have here := (removes_of_removeConstraint first).network
      obtain ⟨other, e', found', unable⟩ := ih later
      obtain ⟨e, found, strips⟩ := here.exists_episode found'
      rw [strips.start, strips.finish, canLast_congr here.events] at unable
      exact ⟨other, e, found, unable⟩

/-! ## The phases -/

/-- Constraints are read, merging is found out, bounds are narrowed, and
constraints are removed. -/
theorem simplify_eq_ok {u : Unit} (done : simplify p = .ok u q) :
    ∃ found p₁ merge p₂ p₃, constraints p = .ok found p₁ ∧
      Merge.plan p₁.network .empty found.toList = .ok merge ∧
      Attempt.each narrowBounds merge.narrowed.entries p₁ = .ok () p₂ ∧
      Attempt.each removeConstraint merge.removed.toList p₂ = .ok () p₃ ∧ q = p₃.stale := by
  obtain ⟨found, p₁, viewed, merging⟩ := Attempt.bind_eq_ok_iff.mp done
  obtain ⟨merge, p₁, read, narrowing⟩ := Attempt.bind_eq_ok_iff.mp merging
  obtain ⟨planned, rfl⟩ := Attempt.read_eq_ok_iff.mp read
  obtain ⟨_, p₂, narrowed, removing⟩ := Attempt.bind_eq_ok_iff.mp narrowing
  obtain ⟨_, p₃, removed, last⟩ := Attempt.bind_eq_ok_iff.mp removing
  exact ⟨found, p₁, merge, p₂, p₃, viewed, planned, narrowed, removed,
    Attempt.modify_eq_ok_iff.mp last⟩

/-- Reading is refused, or merging, or narrowing, or removing. -/
theorem simplify_eq_error (refused : simplify p = .error fault q) :
    constraints p = .error fault q ∨
    (∃ found, constraints p = .ok found q ∧
      Merge.plan q.network .empty found.toList = .error fault) ∨
    ∃ found p₁ merge, constraints p = .ok found p₁ ∧
      Merge.plan p₁.network .empty found.toList = .ok merge ∧
      (Attempt.each narrowBounds merge.narrowed.entries p₁ = .error fault q ∨
        ∃ p₂, Attempt.each narrowBounds merge.narrowed.entries p₁ = .ok () p₂ ∧
          Attempt.each removeConstraint merge.removed.toList p₂ = .error fault q) := by
  rcases Attempt.bind_eq_error_iff.mp refused with unread | ⟨found, p₁, viewed, merging⟩
  · exact .inl unread
  rcases Attempt.bind_eq_error_iff.mp merging with unmerged | ⟨merge, p₁, read, narrowing⟩
  · obtain ⟨unplanned, rfl⟩ := Attempt.read_eq_error_iff.mp unmerged
    exact .inr (.inl ⟨found, viewed, unplanned⟩)
  obtain ⟨planned, rfl⟩ := Attempt.read_eq_ok_iff.mp read
  refine .inr (.inr ⟨found, p₁, merge, viewed, planned, ?_⟩)
  rcases Attempt.bind_eq_error_iff.mp narrowing with stopped | ⟨_, p₂, narrowed, removing⟩
  · exact .inl stopped
  rcases Attempt.bind_eq_error_iff.mp removing with stopped | ⟨_, _, _, ⟨⟩⟩
  exact .inr ⟨p₂, narrowed, stopped⟩

theorem looks_constraints : Looks constraints p :=
  looks_view.bind fun _ _ => looks_get.bind fun _ _ => looks_pure _

end Build

open Build

/-- The bounds that a reachable program is narrowed to are in order, so they can
be written. -/
theorem Program.Reachable.fits {found : OrdSet TemporalId} {merge : Merge}
    (reachable : p.Reachable .free) (viewed : constraints p = .ok found q)
    (planned : Merge.plan q.network .empty found.toList = .ok merge) :
    q.network.Ordered ∧ merge.Fits q.network ∧
      ∀ id ∈ found.toList, ∃ c, q.network.temporal id = .ok c := by
  have after := reachable.call .constraints trivial
  rw [Call.run, Attempt.after_of_ok viewed] at after
  have start : Merge.empty.Fits q.network := ⟨by simp [Merge.empty], by simp [Merge.empty]⟩
  exact ⟨after.valid.ordered, Merge.fits_of_plan after.valid.ordered start planned⟩

/-- Reading changes neither bounds nor episodes nor the user's constraints. -/
theorem Program.Looks.unchanged (looks : p.Looks q) :
    q.network.temporals.map (·.bounds) = p.network.temporals.map (·.bounds) ∧
      q.network.episodes = p.network.episodes ∧ q.userConstraints = p.userConstraints := by
  have bounds := congrArg (Array.map (·.bounds)) looks.network.temporals
  simp only [Array.map_map] at bounds
  exact ⟨bounds, looks.network.episodes, looks.userConstraints⟩

/-- A simplification that is refused has changed neither bounds nor episodes nor
the user's constraints, unless there is an episode that cannot have a new
duration, since its events do not exist together. -/
theorem Program.refused_simplify_changes_nothing_unless (reachable : p.Reachable .free)
    (refused : simplify p = .error fault q) :
    (q.network.temporals.map (·.bounds) = p.network.temporals.map (·.bounds) ∧
      q.network.episodes = p.network.episodes ∧ q.userConstraints = p.userConstraints) ∨
    ∃ id e, p.network.episode id = .ok e ∧ ¬ p.network.CanLast e.start e.finish := by
  rcases simplify_eq_error refused with unread | ⟨found, viewed, _⟩ |
      ⟨found, p₁, merge, viewed, planned, failed⟩
  · exact .inl (Looks.unchanged (Attempt.after_of_error unread ▸ looks_constraints))
  · exact .inl (looks_constraints.of_ok viewed).unchanged
  · obtain ⟨_, fits, _⟩ := reachable.fits viewed planned
    obtain ⟨_, p₂, narrowed, narrows⟩ := yields_narrowBounds merge.narrowed.nodup_keys fits.narrowed
    rcases failed with stopped | ⟨p₂, done, stopped⟩
    · rw [narrowed] at stopped
      cases stopped
    · obtain ⟨_, rfl⟩ := EStateM.Result.ok.inj (narrowed.symm.trans done)
      obtain ⟨id, e, found, unable⟩ := exists_not_canLast_of_removeConstraint stopped
      -- neither the read nor the new bounds have touched events and episodes
      have looks := (looks_constraints.of_ok viewed).network
      rw [episode, narrows.episodes, looks.episodes] at found
      rw [canLast_congr (narrows.events.trans looks.events)] at unable
      exact .inr ⟨id, e, found, unable⟩

/-- A constraint from an event to itself that may also take less than no time is
refused before anything is written. -/
theorem Program.refused_simplify_changes_nothing_unless_loop :
    let p := (Program.ofConfig {}).afterCalls [⟨_, .addEvent⟩, ⟨_, .addConstraint ⟨0⟩ ⟨0⟩
      { lower := some (.infinite true), upper := some .infinity }⟩]
    p.Reachable .free ∧ ∃ fault q, simplify p = .error fault q ∧
      ((q.network.temporals.map (·.bounds) = p.network.temporals.map (·.bounds) ∧
        q.network.episodes = p.network.episodes ∧ q.userConstraints = p.userConstraints) ∨
      ∃ id e, p.network.episode id = .ok e ∧ ¬ p.network.CanLast e.start e.finish) := by
  intro p
  have reachable : p.Reachable .free :=
    (reachable_of_config (by decide +kernel)).afterCalls fun _ _ => trivial
  obtain ⟨fault, q, refused⟩ :=
    Attempt.exists_of_isRefused (by decide +kernel : simplify.isRefused p = true)
  exact ⟨reachable, fault, q, refused, refused_simplify_changes_nothing_unless reachable refused⟩

/-- A plan that consists of an episode from an event of one value of a choice to an
event of the other, with a second constraint on the same events. -/
def Program.torn : Program :=
  let value (v : String) : Support := .ofLiteral ⟨⟨1, "x", .controllable, ["A", "B"]⟩, v, false⟩
  (Program.ofConfig {}).afterCalls [
    ⟨_, .addChoice { domain := ["A", "B"], id := some "x", kind := some .controllable }⟩,
    ⟨_, .addEvent⟩,
    ⟨_, .addEvent⟩,
    ⟨_, .edit (.addTemporal ⟨1⟩ ⟨2⟩ .unconstrained)⟩,
    ⟨_, .addEpisode
      { start := some ⟨1⟩
        finish := some ⟨2⟩
        duration := some { lower := some .zero, upper := some .zero } }⟩,
    ⟨_, .edit (.attachTemporal ⟨0⟩ ⟨0⟩)⟩,
    ⟨_, .setPlan (.episode ⟨0⟩)⟩,
    ⟨_, .edit (.setSupport (.event ⟨1⟩) (value "A"))⟩,
    ⟨_, .edit (.setSupport (.event ⟨2⟩) (value "B"))⟩]

/-- The second constraint is given the bounds of the duration before the duration
turns out not to be replaceable. -/
theorem Program.refused_simplify_narrows_torn : torn.Reachable .free ∧
    ∃ fault q, simplify torn = .error fault q ∧
      q.network.temporals.map (·.bounds) ≠ torn.network.temporals.map (·.bounds) := by
  refine ⟨(reachable_of_config (by decide +kernel)).afterCalls fun _ _ => trivial, ?_⟩
  obtain ⟨fault, q, refused⟩ :=
    Attempt.exists_of_isRefused (by decide +kernel : simplify.isRefused torn = true)
  refine ⟨fault, q, refused, ?_⟩
  rw [← Attempt.after_of_error refused]
  decide +kernel

end PlanNetwork
