/-
# Elementary operations that succeed

What a composition does step by step is to make events and constraints and to
write guards. The lemmas below give conditions under which such a step succeeds,
and what it leaves behind. A step that makes an element leaves the older ones
alone. A step that writes the guard that is there changes at most the journal.
-/

import PlanNetwork.Network.Creation
import PlanNetwork.Proofs.Choice
import PlanNetwork.Proofs.Identity
import PlanNetwork.Proofs.Network.Growth
import PlanNetwork.Proofs.Support.Path

namespace PlanNetwork

open Network

variable {n : Network} {element : Guarded} {s t : Support}

namespace Network

/-- A constraint leads from one event to another and has the support. -/
def Links (n : Network) (id : TemporalId) (start finish : EventId) (s : Support) : Prop :=
  n.support (.temporal id) = .ok s ∧
    ∃ c, n.temporal id = .ok c ∧ c.start = start ∧ c.finish = finish

/-- The event is a choice between the values, and its variable has the serial
number as its key. -/
def IsChoice (n : Network) (id : EventId) (domain : List String) (serial : Nat) : Prop :=
  ∃ e c, n.event id = .ok e ∧ e.choice = some c ∧ c.subject.key = serial ∧
    c.subject.domain = domain

/-- The event is there and is no choice. -/
def NoChoice (n : Network) (id : EventId) : Prop := ∃ e, n.event id = .ok e ∧ e.choice = none

theorem NoChoice.has {id : EventId} (none : n.NoChoice id) : n.Has (.event id) := by
  obtain ⟨e, found, _⟩ := none
  exact ⟨e.guard, map_eq_ok_iff.mpr ⟨e, found, rfl⟩⟩

theorem NoChoice.grows {m : Network} {touched : Guarded → Prop} {id : EventId}
    (none : n.NoChoice id) (grows : Grows touched n m) : m.NoChoice id := by
  obtain ⟨e, found, plain⟩ := none
  obtain ⟨g, found'⟩ := grows.event found
  exact ⟨_, found', plain⟩

theorem NoChoice.choice_ne_ok {id : EventId} {c : Choice} (none : n.NoChoice id) :
    n.choice id ≠ .ok c := by
  obtain ⟨e, found, plain⟩ := none
  intro chosen
  obtain ⟨e', found', carried⟩ := choice_eq_ok_iff.mp chosen
  obtain rfl := Except.ok.inj (found.symm.trans found')
  rw [plain] at carried
  cases carried

theorem has_of_choice {id : EventId} {c : Choice} (chosen : n.choice id = .ok c) :
    n.Has (.event id) := by
  obtain ⟨e, found, _⟩ := choice_eq_ok_iff.mp chosen
  exact ⟨e.guard, map_eq_ok_iff.mpr ⟨e, found, rfl⟩⟩

/-- An old event carries the choice that it carried. -/
theorem Grows.choice_iff {m : Network} {touched : Guarded → Prop} {id : EventId} {c : Choice}
    (grows : Grows touched n m) (there : n.Has (.event id)) :
    m.choice id = .ok c ↔ n.choice id = .ok c := by
  obtain ⟨g, found⟩ := there
  obtain ⟨e, found, _⟩ := map_eq_ok_iff.mp found
  obtain ⟨g', found'⟩ := grows.event found
  simp only [choice_eq_ok_iff, found, found', Except.ok.injEq, exists_eq_left']

theorem same_refl (n : Network) : Same n n := ⟨rfl, fun _ => rfl⟩

theorem same_note (n : Network) (element : Guarded) (g : Guard) : Same n (n.note element g) :=
  ⟨bare_note, fun _ => guard_note⟩

theorem adds_withSerial {later : Nat} (le : n.nextSerial ≤ later) : Adds n (n.withSerial later) :=
  ⟨.of_lookups id id id id le, rfl⟩

/-! ## One more element -/

theorem adds_pushEvent (n : Network) (e : Event) :
    Adds n { n with events := n.events.push e } :=
  ⟨.of_lookups lookup_push id id id (Nat.le_refl _), rfl⟩

theorem adds_pushTemporal (n : Network) (c : TemporalConstraint) :
    Adds n { n with temporals := n.temporals.push c } :=
  ⟨.of_lookups id id lookup_push id (Nat.le_refl _), rfl⟩

theorem not_has_event {id : EventId} (last : id.index = n.events.size) :
    ¬ n.Has (.event id) := by
  rintro ⟨g, found⟩
  obtain ⟨e, there, _⟩ := map_eq_ok_iff.mp found
  exact lookup_ne_ok last there

theorem not_has_episode {id : EpisodeId} (last : id.index = n.episodes.size) :
    ¬ n.Has (.episode id) := by
  rintro ⟨g, found⟩
  obtain ⟨e, there, _⟩ := map_eq_ok_iff.mp found
  exact lookup_ne_ok last there

theorem not_has_temporal {id : TemporalId} (last : id.index = n.temporals.size) :
    ¬ n.Has (.temporal id) := by
  rintro ⟨g, found⟩
  obtain ⟨c, there, _⟩ := map_eq_ok_iff.mp found
  exact lookup_ne_ok last there

end Network

theorem Support.isEmpty_eq_false_of_tryAnd {u : Support} (narrowed : s.tryAnd t = .ok u) :
    u.isEmpty = false := by
  obtain ⟨nonempty, rfl⟩ := tryAnd_eq_ok_iff.mp narrowed
  exact nonempty

namespace Edit

/-! ## Guards -/

/-- Writing the guard that is there changes nothing. -/
theorem same_setGuard {g : Guard} (found : n.guard element = .ok g) :
    Same n ((n.note element g).setGuard element g) := by
  rw [setGuard_of_guard (guard_note.trans found)]
  exact same_note n element g

/-- Narrowing an element by what it has already changes nothing. -/
theorem yields_narrow (found : n.support element = .ok s) (again : s.tryAnd t = .ok s) :
    (narrow element t).Yields n fun _ m => Same n m :=
  ⟨(), _, narrow_eq_ok_iff.mpr ⟨s, s, found, again, rfl⟩,
    same_setGuard (support_eq_ok_iff.mp found)⟩

/-- Setting the support that is there changes nothing. -/
theorem yields_setSupport (found : n.support element = .ok s) (nonempty : s.isEmpty = false) :
    (setSupport element s).Yields n fun _ m => Same n m :=
  ⟨(), _, setSupport_eq_ok_iff.mpr ⟨.ofSupport s, support_eq_ok_iff.mp found, nonempty, rfl⟩,
    same_setGuard (support_eq_ok_iff.mp found)⟩

/-- Adding a literal that is required changes nothing. -/
theorem yields_addLiteral {literal : Literal} (found : n.support element = .ok s)
    (required : s.Requires literal) :
    (addLiteral element literal).Yields n fun _ m => Same n m := by
  have guard := support_eq_ok_iff.mp found
  refine ⟨(), _, changeGuard_eq_ok_iff.mpr ⟨.ofSupport s, _, guard, rfl, rfl⟩, ?_⟩
  rw [Guard.addLiteral_eq, Guard.support_ofSupport, Support.withLiteral_eq_self required]
  exact same_setGuard guard

/-- All steps take effect if each of them succeeds. -/
theorem yields_atomically {α : Type} {op : Edit α} {post : α → Network → Prop}
    (steps : ∀ k, Same n k → op.Yields k post) (commits : ∀ a m, post a m → post a m.commit) :
    (atomically op).Yields n post := by
  by_cases nested : n.journal.isSome = true
  · obtain ⟨a, m, done, holds⟩ := steps n (same_refl n)
    exact ⟨a, m, (atomically_of_nested nested).trans done, holds⟩
  · obtain ⟨a, m, done, holds⟩ := steps n.checkpoint (same_checkpoint n)
    refine ⟨a, m.commit, ?_, commits a m holds⟩
    rw [atomically_of_idle (by simpa using nested)]
    exact Attempt.bracket_eq_ok_iff.mpr ⟨m, done, rfl⟩

/-- What has taken effect as a whole was done by the steps, between networks that
differ from those before and after in the journal alone. -/
theorem exists_same_of_atomically_eq_ok {α : Type} {op : Edit α} {a : α}
    (done : atomically op n = .ok a m) : ∃ n' m', Same n n' ∧ op n' = .ok a m' ∧ Same m' m := by
  rcases of_atomically_eq_ok done with plain | ⟨k, inner, rfl⟩
  · exact ⟨n, m, same_refl n, plain, same_refl m⟩
  · exact ⟨_, k, same_checkpoint n, inner, same_commit k⟩

/-! ## New elements -/

theorem yields_allocateAs (kind : String) (id name : Option String) :
    (allocateAs kind id name).Yields n fun identity m => Adds n m ∧
      identity = (Identity.fresh kind n.nextSerial).override id name ∧
      m.nextSerial = n.nextSerial + 1 :=
  ⟨_, _, allocateAs_eq_ok_iff.mpr ⟨rfl, rfl⟩, adds_withSerial (Nat.le_succ _), rfl, rfl⟩

/-- A new event exists always and is no choice. -/
theorem yields_addEventAs (identity : Identity) :
    (addEventAs identity).Yields n fun id m => Adds n m ∧ ¬ n.Has (.event id) ∧
      m.support (.event id) = .ok .always ∧ m.NoChoice id := by
  refine ⟨_, _, pushEvent_eq_ok_iff.mpr ⟨rfl, rfl⟩, adds_pushEvent n _, not_has_event rfl, ?_,
    _, lookup_push_self rfl, rfl⟩
  exact support_eq_ok_iff.mpr (map_eq_ok_iff.mpr ⟨_, lookup_push_self rfl, rfl⟩)

theorem yields_addEvent : addEvent.Yields n fun id m => Adds n m ∧ ¬ n.Has (.event id) ∧
    m.support (.event id) = .ok .always ∧ m.NoChoice id := by
  have identity : (allocate "Event").Yields n fun _ m => Adds n m :=
    ⟨_, _, allocate_eq_ok_iff.mpr ⟨rfl, rfl⟩, adds_withSerial (Nat.le_succ _)⟩
  refine identity.bind fun identity k numbered => ?_
  obtain ⟨id, m, done, added, new, support⟩ := yields_addEventAs (n := k) identity
  exact ⟨id, m, done, numbered.trans added, numbered.not_has new, support⟩

/-- A new choice exists always, and its variable is not an old one. -/
theorem yields_addChoice {spec : ChoiceSpec} {kind : Controllability}
    (valid : spec.validate n.tolerance = .ok kind) :
    (addChoice spec).Yields n fun id m => Adds n m ∧ ¬ n.Has (.event id) ∧
      m.support (.event id) = .ok .always ∧ m.IsChoice id spec.domain n.nextSerial ∧
      m.nextSerial = n.nextSerial + 1 := by
  refine Attempt.yields_read valid ?_
  refine (yields_allocateAs _ _ _).bind fun identity k ⟨numbered, named, later⟩ => ?_
  refine ⟨_, _, pushEvent_eq_ok_iff.mpr ⟨rfl, rfl⟩, numbered.trans (adds_pushEvent k _),
    numbered.not_has (not_has_event rfl), ?_, ?_, later⟩
  · exact support_eq_ok_iff.mpr (map_eq_ok_iff.mpr ⟨_, lookup_push_self rfl, rfl⟩)
  · refine ⟨_, _, lookup_push_self rfl, rfl, ?_, rfl⟩
    rw [named]
    exact Identity.override_serial ..

/-- A new constraint leaves what is there alone and has the support. -/
theorem yields_linkUnder (start finish : EventId) (bounds : Bounds)
    (nonempty : s.isEmpty = false) :
    (linkUnder start finish bounds s).Yields n fun id m => Adds n m ∧ ¬ n.Has (.temporal id) ∧
      m.Links id start finish s := by
  refine ⟨_, _, linkUnder_eq_ok_iff.mpr ⟨nonempty, rfl, rfl⟩, ?_, not_has_temporal rfl, ?_⟩
  · exact (adds_withSerial (Nat.le_succ _)).trans (adds_pushTemporal _ _)
  · exact ⟨support_eq_ok_iff.mpr (map_eq_ok_iff.mpr ⟨_, lookup_push_self rfl, rfl⟩), _,
      lookup_push_self rfl, rfl, rfl⟩

/-- A new constraint applies where both its events exist. -/
theorem yields_link {start finish : EventId} {first second : Support} (bounds : Bounds)
    (starts : n.support (.event start) = .ok first)
    (finishes : n.support (.event finish) = .ok second) (both : first.tryAnd second = .ok s) :
    (link start finish bounds).Yields n fun id m => Adds n m ∧ ¬ n.Has (.temporal id) ∧
      m.Links id start finish s :=
  Attempt.yields_read (endpointSupport_eq_ok_iff.mpr ⟨first, second, starts, finishes, both⟩)
    (yields_linkUnder start finish bounds (Support.isEmpty_eq_false_of_tryAnd both))

/-- The duration of an episode between events that always exist always applies. -/
theorem yields_addDuration {start finish : EventId} {spec : DurationSpec} {bounds : Bounds}
    (resolved : spec.resolve = .ok bounds) (starts : n.support (.event start) = .ok .always)
    (finishes : n.support (.event finish) = .ok .always) :
    (addDuration start finish spec).Yields n fun id m => Adds n m ∧ ¬ n.Has (.temporal id) ∧
      m.support (.temporal id) = .ok .always := by
  have both := Support.always_tryAnd_always
  refine Attempt.yields_read resolved ?_
  refine Attempt.yields_read
    (endpointSupport_eq_ok_iff.mpr ⟨_, _, starts, finishes, both⟩) ?_
  refine Attempt.yields_read finishes ?_
  refine Attempt.yields_read (refuseClash_eq_ok_iff.mpr both) ?_
  obtain ⟨id, m, done, added, new, support, _⟩ := yields_linkUnder (n := n) start finish bounds
    (Support.isEmpty_eq_false_of_tryAnd both)
  exact ⟨id, m, done, added, new, support⟩

end Edit

end PlanNetwork
