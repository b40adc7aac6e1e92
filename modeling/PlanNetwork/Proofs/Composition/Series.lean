/-
# Composing what is executed as a whole

Episodes that have not been composed yet exist always, and so do their events.
Composing them one after the other or side by side narrows guards by what always
holds, which does nothing, and all links it makes apply always. The composite is
settled since its episodes are.
-/

import PlanNetwork.Proofs.Composition.Course
import PlanNetwork.Proofs.Composition.Made
import PlanNetwork.Proofs.Composition.Propagation
import PlanNetwork.Proofs.Composition.Steps

namespace PlanNetwork

open Network

variable {touched : Guarded → Prop} {n k m : Network} {bound : Nat} {id : EpisodeId} {e : Episode}

namespace Network

/-- The episode exists always and can be composed with others. -/
structure Ready (n : Network) (bound : Nat) (id : EpisodeId) : Prop where
  /-- It is settled under the path without choices. -/
  settled : n.Settled bound id []
  /-- Others can follow it. -/
  running : ∀ {e}, n.episode id = .ok e → e.terminal = false

theorem Ready.exists_owns (h : n.Ready bound id) :
    ∃ e, n.Owns id e .always ∧ e.terminal = false := by
  obtain ⟨e, owns⟩ := h.settled.owns
  exact ⟨e, owns, h.running owns.found⟩

theorem Ready.flagged (h : n.Ready bound id) : n.Flagged id false :=
  h.exists_owns.imp fun _ ⟨owns, running⟩ => ⟨owns.found, running⟩

theorem Ready.exists_episode (h : n.Ready bound id) : ∃ e, n.episode id = .ok e := by
  obtain ⟨e, owns, _⟩ := h.exists_owns
  exact ⟨e, owns.found⟩

/-- Every part of an episode that is ready is there. -/
theorem Ready.has (h : n.Ready bound id) {element : Guarded} (member : element ∈ n.parts id) :
    n.Has element := by
  obtain ⟨_, _, found⟩ := h.settled.exists_path member
  exact has_of_support found

theorem Ready.parts_eq (h : n.Ready bound id) (grows : Grows touched n m) :
    m.parts id = n.parts id := by
  obtain ⟨e, found⟩ := h.exists_episode
  exact grows.parts found

/-- What is put behind the others is newer than what is ready. -/
theorem Ready.index_lt {composite : EpisodeId} (h : n.Ready bound id) (grown : Extends touched n k)
    (put : Put k m composite e) : id.index < composite.index := by
  obtain ⟨inner, found⟩ := h.exists_episode
  rw [put.handle, grown.size]
  exact index_lt_size found

theorem running_of_grows (grows : Grows touched n m) (found : n.episode id = .ok e)
    (running : e.terminal = false) {e' : Episode} (found' : m.episode id = .ok e') :
    e'.terminal = false := by
  obtain ⟨g, there⟩ := grows.episode found
  obtain rfl : e' = { e with guard := g } := Except.ok.inj (found'.symm.trans there)
  exact running

theorem Ready.grows (h : n.Ready bound id) (grows : Grows touched n m) {later : Nat}
    (le : bound ≤ later) (apart : ∀ element ∈ n.parts id, ¬ touched element) :
    m.Ready later id := by
  obtain ⟨e, owns, running⟩ := h.exists_owns
  exact ⟨h.settled.grows grows le apart, running_of_grows grows owns.found running⟩

theorem Ready.adds (h : n.Ready bound id) (added : Adds n m) : m.Ready bound id :=
  h.grows added.toGrows (Nat.le_refl _) fun _ _ => not_false

/-- New constraints have been made that apply always. -/
structure Linked (n m : Network) (constraints : List TemporalId) : Prop where
  /-- Nothing has happened to what was there. -/
  adds : Adds n m
  /-- The constraints are new. -/
  new : ∀ c ∈ constraints, ¬ n.Has (.temporal c)
  /-- They apply always. -/
  support : ∀ c ∈ constraints, m.support (.temporal c) = .ok .always

namespace Linked

variable {first second : List TemporalId}

theorem nil (added : Adds n m) : Linked n m [] := ⟨added, nofun, nofun⟩

theorem single {c : TemporalId} {start finish : EventId} (added : Adds n m)
    (new : ¬ n.Has (.temporal c)) (links : m.Links c start finish .always) : Linked n m [c] := by
  refine ⟨added, fun c' member => ?_, fun c' member => ?_⟩
  · rwa [List.mem_singleton.mp member]
  · rw [List.mem_singleton.mp member]
    exact links.1

theorem append (before : Linked n k first) (after : Linked k m second) :
    Linked n m (first ++ second) := by
  refine ⟨before.adds.trans after.adds, fun c member => ?_, fun c member => ?_⟩
  · rcases List.mem_append.mp member with old | young
    · exact before.new c old
    · exact before.adds.not_has (after.new c young)
  · rcases List.mem_append.mp member with old | young
    · exact after.adds.support (before.support c old)
    · exact after.support c young

theorem same (linked : Linked n k first) (same : Same k m) : Linked n m first :=
  ⟨linked.adds.trans same.adds, linked.new, fun c member =>
    same.adds.support (linked.support c member)⟩

theorem after_adds (added : Adds n k) (linked : Linked k m first) : Linked n m first :=
  ⟨added.trans linked.adds, fun c member => added.not_has (linked.new c member), linked.support⟩

theorem subset (linked : Linked n m second) (among : first ⊆ second) : Linked n m first :=
  ⟨linked.adds, fun c member => linked.new c (among member), fun c member =>
    linked.support c (among member)⟩

end Linked

end Network

namespace Edit

theorem isEmpty_always : Support.always.isEmpty = false := rfl

/-- Propagating what always holds into an episode that exists always. -/
theorem yields_propagate_always (ready : n.Ready bound id) :
    (propagate id .always).Yields n fun _ m => Same n m := by
  obtain ⟨e, owns, _⟩ := ready.exists_owns
  have parts : ∀ element ∈ n.parts id,
      ∃ s, n.support element = .ok s ∧ s.tryAnd .always = .ok s := by
    intro element member
    obtain ⟨literals, path, found⟩ := ready.settled.exists_path member
    exact ⟨_, found, Support.ofPath_tryAnd_always path.toIsPath⟩
  refine (yields_propagate owns.found fun element member => ?_).mono fun _ m narrowed =>
    ⟨narrowed.bare, fun element => ?_⟩
  · obtain ⟨s, found, same⟩ := parts element member
    exact ⟨s, s, found, same, same⟩
  · by_cases member : element ∈ n.parts id
    · obtain ⟨s, found, same⟩ := parts element member
      have kept := narrowed.inside member found same
      rw [support_eq_ok_iff.mp kept, support_eq_ok_iff.mp found]
    · exact narrowed.outside element member

/-- A composite of episodes that are all executed is settled once its ends and
its constraints are there. -/
theorem yields_addSeries {ids : List EpisodeId} {options : CompositionOptions}
    {start finish : EventId} {constraints : List TemporalId} {composition : Composition}
    {bounds : Bounds} (resolved : (options.duration.getD .unconstrained).resolve = .ok bounds)
    (linked : Linked n k constraints)
    (ready : ∀ id ∈ ids, n.Ready bound id) (le : bound ≤ n.nextSerial)
    (starts : k.support (.event start) = .ok .always)
    (finishes : k.support (.event finish) = .ok .always)
    (series : composition = .sequence ids ∨ composition = .parallel ids)
    (opens : Origin n k ids composition start) (closes : Origin n k ids composition finish) :
    (addComposite options start finish composition constraints false).Yields k fun id m => ∃ e,
      Made (fun _ => False) options.id ids n m id e ∧ e.composition = composition := by
  refine (yields_addComposite resolved composition constraints starts finishes).mono
    fun id m ⟨k', e, numbered, counted, put, named, first, last, composed, internal, running⟩ => ?_
  have grown := linked.adds.trans numbered
  have grows := grown.toGrows.trans put.grows
  have listed {c : TemporalId} (member : c ∈ e.constraints.toList) : c ∈ constraints := by
    rw [internal] at member
    exact OrdSet.mem_of_mem_ofList member
  subst first last composed
  have settled : m.Settled m.nextSerial id [] := by
    refine .series .nil put.owns series ?_ ?_ ?_
    · intro c member
      exact put.grows.support not_false (numbered.support (linked.support c (listed member)))
    · exact fun child member => (ready child member).index_lt grown put
    · intro child member
      exact (ready child member).settled.grows grows (Nat.le_trans le grows.serial)
        fun _ _ => not_false
  refine ⟨e, put.made grown settled ?_ linked.adds.serial (by omega) running
    (opens.grows numbered.toGrows) (closes.grows numbered.toGrows)
    (fun c member => linked.new c (listed member)) (fun primitive => ?_) fun event selects => ?_,
    rfl⟩
  · exact named
  · rw [isPrimitive_series series] at primitive
    cases primitive
  · rcases series with series | series <;> rw [series] at selects <;> cases selects

/-! ## One after the other -/

theorem yields_follow {gap : Number} {first second : EpisodeId} (before : n.Ready bound first)
    (after : n.Ready bound second) :
    (follow gap first second).Yields n fun c m => Linked n m [c] := by
  obtain ⟨e, owns, running⟩ := before.exists_owns
  refine Attempt.yields_read owns.found ?_
  rw [running]
  refine Attempt.yields_read owns.finish ?_
  refine (yields_propagate_always after).bind fun _ k same => ?_
  obtain ⟨e', owns', _⟩ := (after.adds same.adds).exists_owns
  refine Attempt.yields_read owns'.found ?_
  refine Attempt.yields_read (same.adds.support owns.finish) ?_
  refine (yields_linkUnder _ _ _ isEmpty_always).mono fun c m ⟨added, new, links⟩ => ?_
  exact .single (same.adds.trans added) (same.adds.not_has new) links

theorem yields_followAll {gap : Number} {ids : List EpisodeId}
    (ready : ∀ id ∈ ids, n.Ready bound id) :
    (followAll gap ids).Yields n fun constraints m => Linked n m constraints := by
  induction ids generalizing n with
  | nil => exact Attempt.yields_pure (.nil (.refl n))
  | cons first rest ih =>
    cases rest with
    | nil => exact Attempt.yields_pure (.nil (.refl n))
    | cons second rest =>
      have later : ∀ id ∈ second :: rest, n.Ready bound id := fun id member =>
        ready id (List.mem_cons_of_mem _ member)
      refine (yields_follow (ready first (List.mem_cons_self ..))
        (later second (List.mem_cons_self ..))).bind fun c k linked => ?_
      refine (ih fun id member => (later id member).adds linked.adds).bind fun cs m more => ?_
      exact Attempt.yields_pure (linked.append more)

/-- The ends of a sequence exist always. They are those of the first and the last
episode, or else they are new. -/
theorem yields_openSequence {options : CompositionOptions} {firstStart lastFinish : EventId}
    (unanchored : options.Unanchored) (starts : n.support (.event firstStart) = .ok .always)
    (finishes : n.support (.event lastFinish) = .ok .always) :
    (openSequence options firstStart lastFinish).Yields n fun (start, finish, links) m =>
      Linked n m links ∧ m.support (.event start) = .ok .always ∧
        m.support (.event finish) = .ok .always ∧
        (start = firstStart ∨ ¬ n.Has (.event start) ∧ m.NoChoice start) ∧
        (finish = lastFinish ∨ ¬ n.Has (.event finish) ∧ m.NoChoice finish) := by
  unfold openSequence
  cases options.mode.getD .shared with
  | shared =>
    rw [unanchored.start, unanchored.finish]
    exact Attempt.yields_pure ⟨.nil (.refl n), starts, finishes, .inl rfl, .inl rfl⟩
  | boundary =>
    rw [unanchored.start, unanchored.finish]
    refine yields_addEvent.bind fun start k ⟨added, new, always, plain⟩ => ?_
    refine yields_addEvent.bind fun finish k' ⟨added', new', always', plain'⟩ => ?_
    have grown := added.trans added'
    refine (yields_link _ (added'.support always) (grown.support starts)
      Support.always_tryAnd_always).bind fun c m ⟨linked, fresh, links⟩ => ?_
    refine Attempt.yields_pure ⟨.after_adds grown (.single linked fresh links), ?_, ?_, ?_, ?_⟩
    · exact linked.support (added'.support always)
    · exact linked.support always'
    · exact .inr ⟨new, plain.grows (added'.trans linked).toGrows⟩
    · exact .inr ⟨added.not_has new', plain'.grows linked.toGrows⟩

theorem yields_closeSequence {options : CompositionOptions} {lastFinish finish : EventId}
    (lasts : n.support (.event lastFinish) = .ok .always)
    (finishes : n.support (.event finish) = .ok .always) :
    (closeSequence options lastFinish finish).Yields n fun links m => Linked n m links := by
  unfold closeSequence
  cases options.mode.getD .shared with
  | shared => exact Attempt.yields_pure (.nil (.refl n))
  | boundary =>
    refine Attempt.yields_read lasts ?_
    refine (yields_setSupport finishes isEmpty_always).bind fun _ k same => ?_
    refine (yields_linkUnder _ _ _ isEmpty_always).bind fun c m ⟨added, new, links⟩ => ?_
    exact Attempt.yields_pure (.after_adds same.adds (.single added new links))

/-- Episodes that are ready can be executed one after the other. -/
theorem yields_sequence {ids : List EpisodeId} {options : CompositionOptions} {bounds : Bounds}
    (unanchored : options.Unanchored)
    (resolved : (options.duration.getD .unconstrained).resolve = .ok bounds) (nonempty : ids ≠ []) (ready : ∀ id ∈ ids, n.Ready bound id)
    (le : bound ≤ n.nextSerial) :
    (sequence ids options).Yields n fun id m => ∃ e,
      Made (fun _ => False) options.id ids n m id e ∧ e.composition = .sequence ids := by
  unfold sequence
  have firsts := ready _ (List.head_mem nonempty)
  have lasts := ready _ (List.getLast_mem nonempty)
  rw [List.head?_eq_some_head nonempty, List.getLast?_eq_some_getLast nonempty]
  refine yields_atomically (fun k₀ same => ?_) fun id m ⟨e, made, composed⟩ =>
    ⟨e, made.commit, composed⟩
  obtain ⟨first, owns, _⟩ := (firsts.adds same.adds).exists_owns
  obtain ⟨last, owns', running⟩ := (lasts.adds same.adds).exists_owns
  refine Attempt.yields_read owns.found (Attempt.yields_read owns'.found ?_)
  refine (yields_openSequence unanchored owns.start owns'.finish).bind
    fun (start, finish, opening) k₁ ⟨opened, starts, finishes, opens, closes⟩ => ?_
  have grown₁ := same.adds.trans opened.adds
  refine (yields_followAll fun id member => (ready id member).adds grown₁).bind
    fun links k₂ followed => ?_
  have grown₂ := opened.adds.trans followed.adds
  refine (yields_closeSequence (grown₂.support owns'.finish)
    (followed.adds.support finishes)).bind fun closing k₃ closed => ?_
  have linked := ((opened.append followed).append closed).after_adds same.adds
  rw [running]
  have later := (followed.adds.trans closed.adds).toGrows
  refine yields_addSeries resolved linked ready le ?_ ?_ (.inl rfl) ?_ ?_
  · exact closed.adds.support (followed.adds.support starts)
  · exact closed.adds.support (followed.adds.support finishes)
  · rcases opens with rfl | ⟨new, plain⟩
    · refine .inl ⟨_, List.head_mem nonempty, ?_⟩
      rw [← parts_of_bare same.bare]
      exact mem_parts_start owns.found
    · exact .inr ⟨same.adds.not_has new, .inl (plain.grows later)⟩
  · rcases closes with rfl | ⟨new, plain⟩
    · refine .inl ⟨_, List.getLast_mem nonempty, ?_⟩
      rw [← parts_of_bare same.bare]
      exact mem_parts_finish owns'.found
    · exact .inr ⟨same.adds.not_has new, .inl (plain.grows later)⟩

/-- What a sequence has made of episodes that are ready. -/
theorem made_of_sequence {ids : List EpisodeId} {options : CompositionOptions}
    (unanchored : options.Unanchored) (nonempty : ids ≠ []) (ready : ∀ id ∈ ids, n.Ready bound id)
    (le : bound ≤ n.nextSerial) (done : sequence ids options n = .ok id m) : ∃ e,
      Made (fun _ => False) options.id ids n m id e ∧ e.composition = .sequence ids := by
  obtain ⟨_, _, _, _, _, _, _, _, _, _, _, _, _, _, _, _, _, _, _, _, _, composite⟩ :=
    sequence_eq_ok done
  obtain ⟨_, resolved⟩ := exists_bounds_of_addComposite composite
  exact (yields_sequence unanchored resolved nonempty ready le).of_eq_ok done

/-! ## Side by side -/

theorem yields_joinBranch {start finish : EventId} (ready : n.Ready bound id)
    (starts : n.support (.event start) = .ok .always)
    (finishes : n.support (.event finish) = .ok .always) :
    (joinBranch start finish id).Yields n fun link m => Linked n m [link.1, link.2] := by
  have both := Support.always_tryAnd_always
  obtain ⟨e, owns, _⟩ := ready.exists_owns
  refine Attempt.yields_read owns.found ?_
  refine (yields_link _ starts owns.start both).bind fun opening k ⟨added, new, links⟩ => ?_
  have opened := Linked.single added new links
  refine (yields_link _ (added.support owns.finish) (added.support finishes) both).bind
    fun closing k' ⟨added', new', links'⟩ => ?_
  have closed := opened.append (.single added' new' links')
  refine Attempt.yields_read (closed.adds.support owns.finish) ?_
  refine (yields_narrow (closed.adds.support finishes) both).bind fun _ m same => ?_
  exact Attempt.yields_pure (closed.same same)

theorem yields_joinBranches {start finish : EventId} {ids : List EpisodeId}
    (ready : ∀ id ∈ ids, n.Ready bound id) (starts : n.support (.event start) = .ok .always)
    (finishes : n.support (.event finish) = .ok .always) :
    (joinBranches start finish ids).Yields n fun links m => Linked n m (flatLinks links) := by
  induction ids generalizing n with
  | nil => exact Attempt.yields_pure (.nil (.refl n))
  | cons id rest ih =>
    refine (yields_joinBranch (ready id (List.mem_cons_self ..)) starts finishes).bind
      fun link k linked => ?_
    refine (ih (fun id member => (ready id (List.mem_cons_of_mem _ member)).adds linked.adds)
      (linked.adds.support starts) (linked.adds.support finishes)).bind fun links m more => ?_
    exact Attempt.yields_pure (linked.append more)

/-- Episodes that are ready can be executed side by side. -/
theorem yields_parallel {ids : List EpisodeId} {options : CompositionOptions} {bounds : Bounds}
    (unanchored : options.Unanchored)
    (resolved : (options.duration.getD .unconstrained).resolve = .ok bounds) (nonempty : ids ≠ []) (ready : ∀ id ∈ ids, n.Ready bound id)
    (le : bound ≤ n.nextSerial) :
    (parallel ids options).Yields n fun id m => ∃ e,
      Made (fun _ => False) options.id ids n m id e ∧ e.composition = .parallel ids := by
  have some : ids.isEmpty = false := by simpa using nonempty
  unfold parallel
  rw [some]
  refine Attempt.yields_read
    (checkNotTerminal_of_flagged fun id member => (ready id member).flagged) ?_
  refine yields_atomically (fun k₀ same => ?_) fun id m ⟨e, made, composed⟩ =>
    ⟨e, made.commit, composed⟩
  rw [unanchored.start, unanchored.finish]
  refine yields_addEvent.bind fun start k₁ ⟨added₁, new₁, starts, plain₁⟩ => ?_
  refine yields_addEvent.bind fun finish k₂ ⟨added₂, new₂, finishes, plain₂⟩ => ?_
  have grown₁ := same.adds.trans added₁
  have grown₂ := grown₁.trans added₂
  refine (yields_joinBranches (fun id member => (ready id member).adds grown₂)
    (added₂.support starts) finishes).bind fun links k₃ joined => ?_
  have joint := joined.adds.support finishes
  refine Attempt.yields_read joint ?_
  -- the links that lead to the end have its support already
  have settle : ∀ link ∈ links, ∀ k, Same k₃ k →
      (setSupport (.temporal link.2) .always).Yields k fun _ k' => Same k₃ k' := by
    intro link member k kept
    have listed := mem_flatLinks.mpr ⟨link, member, .inr rfl⟩
    have found := kept.adds.support (joined.support _ listed)
    exact (yields_setSupport found isEmpty_always).mono fun _ _ again => kept.trans again
  refine (Attempt.yields_each settle (same_refl k₃)).bind fun _ k₄ kept => ?_
  have linked : Linked n k₄ (links.map (·.1) ++ links.map (·.2)) := by
    refine ((joined.same kept).after_adds grown₂).subset fun c member => ?_
    rcases List.mem_append.mp member with opening | closing
    · obtain ⟨link, there, rfl⟩ := List.mem_map.mp opening
      exact mem_flatLinks.mpr ⟨link, there, .inl rfl⟩
    · obtain ⟨link, there, rfl⟩ := List.mem_map.mp closing
      exact mem_flatLinks.mpr ⟨link, there, .inr rfl⟩
  have later := joined.adds.trans kept.adds
  refine yields_addSeries resolved linked ready le ?_ ?_ (.inr rfl) ?_ ?_
  · exact kept.adds.support (joined.adds.support (added₂.support starts))
  · exact kept.adds.support joint
  · exact .inr ⟨same.adds.not_has new₁, .inl (plain₁.grows (added₂.trans later).toGrows)⟩
  · exact .inr ⟨grown₁.not_has new₂, .inl (plain₂.grows later.toGrows)⟩

/-- What a parallel composition has made of episodes that are ready. -/
theorem made_of_parallel {ids : List EpisodeId} {options : CompositionOptions}
    (unanchored : options.Unanchored) (nonempty : ids ≠ []) (ready : ∀ id ∈ ids, n.Ready bound id)
    (le : bound ≤ n.nextSerial) (done : parallel ids options n = .ok id m) : ∃ e,
      Made (fun _ => False) options.id ids n m id e ∧ e.composition = .parallel ids := by
  obtain ⟨_, _, _, _, _, _, _, _, _, _, _, _, _, _, _, _, _, _, composite⟩ := parallel_eq_ok done
  obtain ⟨_, resolved⟩ := exists_bounds_of_addComposite composite
  exact (yields_parallel unanchored resolved nonempty ready le).of_eq_ok done

end Edit

end PlanNetwork
