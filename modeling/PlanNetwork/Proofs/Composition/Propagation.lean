/-
# What propagation narrows

Propagating a support into an episode narrows the guards of its parts and
nothing else. A part that is met more than once is narrowed more than once, so
the last time it was narrowed is what is known of its guard.
-/

import PlanNetwork.Proofs.Network.Success

namespace PlanNetwork

open Network

variable {brought : Support → Prop} {n m : Network} {s t : Support}

namespace Edit

/-- Narrowing what is there is refused for the two supports alone, and what has been done
by then is to note the guard. -/
theorem of_narrow_eq_error {element : Guarded} {fault : Fault} (there : n.Has element)
    (refused : narrow element s n = .error fault m) :
    m.bare = n.bare ∧ ∃ old, n.support element = .ok old ∧
      (old.and s).isEmpty = true ∧ fault = .inconsistent ⟨old, s⟩ := by
  obtain ⟨g, found⟩ := there
  rcases Attempt.bind_eq_error_iff.mp refused with missing | ⟨_, _, read, rest⟩
  · rw [Attempt.read_eq_error_iff, found] at missing
    cases missing.1
  obtain ⟨same, rfl⟩ := Attempt.read_eq_ok_iff.mp read
  obtain rfl := Except.ok.inj (found.symm.trans same)
  rcases Attempt.bind_eq_error_iff.mp rest with ⟨⟨⟩⟩ | ⟨_, _, noted, rest⟩
  obtain rfl := Attempt.modify_eq_ok_iff.mp noted
  rcases Attempt.bind_eq_error_iff.mp rest with stopped | ⟨_, _, _, ⟨⟨⟩⟩⟩
  obtain ⟨clash, rfl⟩ := Attempt.read_eq_error_iff.mp stopped
  change refuseClash (g.and s) = _ at clash
  obtain ⟨_, result, rfl⟩ := refuseClash_eq_error_iff.mp clash
  obtain ⟨empty, rfl⟩ := Support.tryAnd_eq_error_iff.mp (Guard.and_eq_error_iff.mp result)
  exact ⟨bare_note, g.support, map_eq_ok_iff.mpr ⟨g, found, rfl⟩, empty, rfl⟩

/-- The parts `L` have been narrowed to a support, and nothing else has changed. -/
structure Narrowed (s : Support) (L : List Guarded) (n m : Network) : Prop where
  /-- Only guards have changed. -/
  bare : m.bare = n.bare
  /-- Each part was last narrowed to the support. -/
  inside : ∀ element ∈ L, ∃ old new : Support, old.tryAnd s = .ok new ∧
    m.support element = .ok new
  /-- Other guards have not changed. -/
  outside : ∀ element, element ∉ L → m.guard element = n.guard element

theorem narrowed_each {L : List Guarded} {u : Unit}
    (done : Attempt.each (narrow · s) L n = .ok u m) : Narrowed s L n m := by
  induction L generalizing n with
  | nil =>
    obtain ⟨_, rfl⟩ := Attempt.pure_eq_ok_iff.mp done
    exact ⟨rfl, fun _ => nofun, fun _ _ => rfl⟩
  | cons part rest ih =>
    obtain ⟨_, k, first, later⟩ := Attempt.bind_eq_ok_iff.mp done
    obtain ⟨old, new, found, narrowed, rfl⟩ := narrow_eq_ok_iff.mp first
    have remaining := ih later
    refine ⟨remaining.bare.trans (bare_setGuard.trans bare_note), ?_, ?_⟩
    · intro element member
      by_cases again : element ∈ rest
      · exact remaining.inside element again
      · obtain rfl : element = part := (List.mem_cons.mp member).resolve_right again
        refine ⟨old, new, narrowed, support_eq_ok_iff.mpr ((remaining.outside element again).trans ?_)⟩
        exact guard_setGuard_self (guard_note.trans (support_eq_ok_iff.mp found))
    · intro element apart
      obtain ⟨differ, later⟩ := not_or.mp (List.mem_cons.not.mp apart)
      rw [remaining.outside element later, guard_setGuard_of_ne (Ne.symm differ), guard_note]

/-- Propagation is to narrow one part after the other, between networks that differ from
those before and after in the journal alone. -/
theorem exists_each_of_propagate {id : EpisodeId} {u : Unit} (done : propagate id s n = .ok u m) :
    ∃ n' m', Same n n' ∧ Attempt.each (narrow · s) (n.parts id) n' = .ok u m' ∧ Same m' m := by
  obtain ⟨n', m', begins, steps, ends⟩ := exists_same_of_atomically_eq_ok done
  obtain ⟨_, _, steps⟩ := Attempt.read_bind_eq_ok_iff.mp steps
  obtain ⟨_, ⟨⟩, narrows⟩ := Attempt.read_bind_eq_ok_iff.mp steps
  exact ⟨n', m', begins, parts_of_bare begins.bare id ▸ narrows, ends⟩

/-- If the episode is there, nothing is done but to narrow the parts. -/
theorem propagate_eq {id : EpisodeId} {e : Episode} (found : n.episode id = .ok e) :
    propagate id s n = atomically (Attempt.each (narrow · s) (n.parts id)) n := by
  have steps {k : Network} (same : Same n k) : (do
      let _ ← Attempt.read (·.episode id)
      let parts ← Attempt.read fun n => .ok (n.parts id)
      Attempt.each (narrow · s) parts : Edit Unit) k = Attempt.each (narrow · s) (n.parts id) k := by
    have first : Attempt.read (·.episode id) k = .ok e k :=
      Attempt.read_eq_ok_iff.mpr ⟨same.episode found, rfl⟩
    have listed : Attempt.read (fun n => .ok (n.parts id)) k = .ok (n.parts id) k :=
      Attempt.read_eq_ok_iff.mpr ⟨congrArg Except.ok (parts_of_bare same.bare id), rfl⟩
    exact (Attempt.bind_of_ok first).trans (Attempt.bind_of_ok listed)
  by_cases nested : n.journal.isSome = true
  · rw [propagate, atomically_of_nested nested, atomically_of_nested nested, steps (same_refl n)]
  · have idle : n.journal = none := by simpa using nested
    rw [propagate, atomically_of_idle idle, atomically_of_idle idle, Attempt.bracket,
      Attempt.bracket, steps (same_checkpoint n)]

theorem narrowed_propagate {id : EpisodeId} {u : Unit} (done : propagate id s n = .ok u m) :
    Narrowed s (n.parts id) n m := by
  obtain ⟨n', m', begins, narrows, ends⟩ := exists_each_of_propagate done
  obtain ⟨bare, inside, outside⟩ := narrowed_each narrows
  refine ⟨ends.bare.trans (bare.trans begins.bare), fun element part => ?_, fun element apart => ?_⟩
  · obtain ⟨old, new, narrowed, found⟩ := inside element part
    exact ⟨old, new, narrowed, by rwa [support, ends.guards]⟩
  · rw [ends.guards, outside element apart, begins.guards]

theorem follows_propagate (id : EpisodeId) (s : Support) :
    Follows brought (propagate id s) n :=
  follows_atomically fun _ => follows_read fun _ _ => follows_read fun parts _ =>
    follows_each (fun _ _ => follows_narrow _ s) parts

/-! ## Propagation that succeeds -/

/-- The element can be narrowed to the support, and doing it again does nothing. -/
def Narrowable (n : Network) (t : Support) (element : Guarded) : Prop :=
  ∃ s u, n.support element = .ok s ∧ s.tryAnd t = .ok u ∧ u.tryAnd t = .ok u

/-- The parts `L` have been narrowed to a support, each of them as if only once. -/
structure NarrowedOnce (t : Support) (L : List Guarded) (n m : Network) : Prop where
  /-- Only guards have changed. -/
  bare : m.bare = n.bare
  /-- Each part has what it had, narrowed. -/
  inside : ∀ {element s u}, element ∈ L → n.support element = .ok s → s.tryAnd t = .ok u →
    m.support element = .ok u
  /-- Other guards have not changed. -/
  outside : ∀ element, element ∉ L → m.guard element = n.guard element

theorem yields_each_narrow {L : List Guarded} (all : ∀ element ∈ L, Narrowable n t element) :
    (Attempt.each (narrow · t) L).Yields n fun _ m => NarrowedOnce t L n m := by
  induction L generalizing n with
  | nil => exact Attempt.yields_pure ⟨rfl, nofun, fun _ _ => rfl⟩
  | cons part rest ih =>
    obtain ⟨s, u, found, narrowed, again⟩ := all part (List.mem_cons_self ..)
    let k := (n.note part (.ofSupport s)).setGuard part (.ofSupport u)
    have first : narrow part t n = .ok () k :=
      narrow_eq_ok_iff.mpr ⟨s, u, found, narrowed, rfl⟩
    have self : k.support part = .ok u :=
      support_eq_ok_iff.mpr (guard_setGuard_self (guard_note.trans (support_eq_ok_iff.mp found)))
    have others : ∀ element, element ≠ part → k.guard element = n.guard element :=
      fun element differ => (guard_setGuard_of_ne (Ne.symm differ)).trans guard_note
    -- a part that comes again has been narrowed already
    have later : ∀ element ∈ rest, Narrowable k t element := by
      intro element member
      by_cases same : element = part
      · exact same ▸ ⟨u, u, self, again, again⟩
      · obtain ⟨s', u', found', rest'⟩ := all element (List.mem_cons_of_mem _ member)
        exact ⟨s', u', by rwa [support, others element same], rest'⟩
    obtain ⟨_, m, done, remaining⟩ := ih later
    refine ⟨(), m, Attempt.bind_eq_ok_iff.mpr ⟨(), k, first, done⟩,
      remaining.bare.trans (bare_setGuard.trans bare_note), ?_, ?_⟩
    · intro element s' u' member found' narrowed'
      by_cases same : element = part
      · subst same
        obtain rfl : s' = s := Except.ok.inj (found'.symm.trans found)
        obtain rfl : u' = u := Except.ok.inj (narrowed'.symm.trans narrowed)
        by_cases more : element ∈ rest
        · exact remaining.inside more self again
        · rw [support, remaining.outside element more]
          exact self
      · have more := (List.mem_cons.mp member).resolve_left same
        exact remaining.inside more (by rwa [support, others element same]) narrowed'
    · intro element apart
      obtain ⟨differ, later⟩ := not_or.mp (List.mem_cons.not.mp apart)
      rw [remaining.outside element later, others element differ]

/-- A part that is reached along several ways is narrowed several times, but
after the first time that does nothing. -/
theorem yields_propagate {id : EpisodeId} {e : Episode} (found : n.episode id = .ok e)
    (all : ∀ element ∈ n.parts id, Narrowable n t element) :
    (propagate id t).Yields n fun _ m => NarrowedOnce t (n.parts id) n m := by
  refine yields_atomically (fun k same => ?_) fun _ m narrowed =>
    ⟨narrowed.bare, fun member found narrowed' => ?_, fun element apart => ?_⟩
  · obtain ⟨g, there⟩ := episode_of_bare same.bare found
    refine Attempt.yields_read there (Attempt.yields_read rfl ?_)
    have supports (element : Guarded) : k.support element = n.support element :=
      congrArg (Except.map _) (same.guards element)
    rw [parts_of_bare same.bare]
    refine (yields_each_narrow fun element member => ?_).mono fun _ m narrowed =>
      ⟨narrowed.bare.trans same.bare, fun member found => ?_, fun element apart => ?_⟩
    · obtain ⟨s, u, found, rest⟩ := all element member
      exact ⟨s, u, (supports element).trans found, rest⟩
    · exact narrowed.inside member ((supports _).trans found)
    · exact (narrowed.outside element apart).trans (same.guards element)
  · rw [support, guard_commit]
    exact narrowed.inside member found narrowed'
  · rw [guard_commit, narrowed.outside element apart]

/-- Where a literal has been propagated into an episode, its events require it. -/
theorem Narrowed.requires {id : EpisodeId} {literal : Literal} {e : Episode} {endpoint : EventId}
    (h : Narrowed (.ofLiteral literal) (n.parts id) n m) (found : m.episode id = .ok e)
    (either : endpoint = e.start ∨ endpoint = e.finish) :
    ∃ t, m.support (.event endpoint) = .ok t ∧ t.Requires literal := by
  have member : Guarded.event endpoint ∈ n.parts id := by
    rw [← parts_of_bare h.bare]
    rcases either with rfl | rfl
    · exact mem_parts_start found
    · exact mem_parts_finish found
  obtain ⟨old, new, narrowed, there⟩ := h.inside _ member
  obtain ⟨_, rfl⟩ := Support.tryAnd_eq_ok_iff.mp narrowed
  exact ⟨_, there, (Support.requires_ofLiteral literal).and_right⟩

end Edit

end PlanNetwork
