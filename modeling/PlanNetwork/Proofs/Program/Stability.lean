/-
# Reading again

The first read of a program registers the episodes that it meets and derives the guards of the
user's constraints. A second one finds all this done, even if the program has been made to
forget the first. It is the same after calls that make elements without composing them, and
after calls that are refused, so the lines behind the fingerprint are the same as well.

There is one exception. A body that starts with the result of a traversal outside reads it as
long as nothing makes it forget that, and reads something else from then on.
-/

import PlanNetwork.Program.Summary
import PlanNetwork.Proofs.Program.Active

namespace PlanNetwork

open Network

variable {n m : Network} {p q r : Program} {waiting : List Program} {t : Traversal}
  {plan : Option EpisodeId} {user : OrdSet TemporalId} {lines : List String} {α β : Type}

/-! ## Lines -/

theorem mapM_eq_ok_of_forall {f g : α → Except Fault β} (same : ∀ {a b}, f a = .ok b → g a = .ok b)
    {items : List α} {results : List β} (done : items.mapM f = .ok results) :
    items.mapM g = .ok results := by
  induction items generalizing results with
  | nil => exact done
  | cons a rest ih =>
    rw [List.mapM_cons] at done ⊢
    obtain ⟨b, first, done⟩ := bind_eq_ok_iff.mp done
    obtain ⟨others, later, done⟩ := bind_eq_ok_iff.mp done
    exact bind_eq_ok_iff.mpr ⟨b, same first, bind_eq_ok_iff.mpr ⟨others, ih later, done⟩⟩

namespace Network

theorem temporalEntry_eq_ok_iff {id : TemporalId} {line : String} :
    n.temporalEntry id = .ok line ↔ ∃ c start finish, n.temporal id = .ok c ∧
      n.event c.start = .ok start ∧ n.event c.finish = .ok finish ∧
      barred ["temporal", c.identity.id, start.identity.id, finish.identity.id,
        c.bounds.kind.text, c.bounds.lower.text, c.bounds.upper.text, c.guard.support.text] =
        line := by
  simp only [temporalEntry, bind_eq_ok_iff, pure, Except.pure, Except.ok.injEq, exists_and_left]

theorem entries_eq_ok_iff : n.entries t user = .ok lines ↔ ∃ episodes events temporals states,
    t.episodes.toList.mapM n.episodeEntry = .ok episodes ∧
    t.events.toList.mapM n.eventEntry = .ok events ∧
    (t.constraints.toList ++ user.toList).mapM n.temporalEntry = .ok temporals ∧
    t.states.toList.mapM n.stateEntry = .ok states ∧
    episodes ++ events ++ temporals ++ states = lines := by
  simp only [entries, bind_eq_ok_iff, pure, Except.pure, Except.ok.injEq, exists_and_left]

/-- Elements that are what they were have the same lines. -/
theorem Preserves.entries (h : n.Preserves m) (found : n.entries t user = .ok lines) :
    m.entries t user = .ok lines := by
  obtain ⟨episodes, events, temporals, states, first, second, third, fourth, rfl⟩ :=
    entries_eq_ok_iff.mp found
  refine entries_eq_ok_iff.mpr ⟨episodes, events, temporals, states,
    mapM_eq_ok_of_forall (fun entry => ?_) first, mapM_eq_ok_of_forall (fun entry => ?_) second,
    mapM_eq_ok_of_forall (fun entry => ?_) third, mapM_eq_ok_of_forall (fun entry => ?_) fourth,
    rfl⟩
  · obtain ⟨e, there, text⟩ := bind_eq_ok_iff.mp entry
    exact bind_eq_ok_iff.mpr ⟨e, h.episode there, text⟩
  · obtain ⟨e, there, text⟩ := bind_eq_ok_iff.mp entry
    exact bind_eq_ok_iff.mpr ⟨e, h.event there, text⟩
  · obtain ⟨c, start, finish, there, starts, ends, rfl⟩ := temporalEntry_eq_ok_iff.mp entry
    exact temporalEntry_eq_ok_iff.mpr
      ⟨c, start, finish, h.temporal there, h.event starts, h.event ends, rfl⟩
  · obtain ⟨c, there, text⟩ := bind_eq_ok_iff.mp entry
    exact bind_eq_ok_iff.mpr ⟨c, h.state there, text⟩

/-- A temporal constraint that is there has a line, for its events are there. -/
theorem WellFormed.exists_temporalEntry (whole : n.WellFormed) {id : TemporalId}
    (there : n.Has (.temporal id)) : ∃ line, n.temporalEntry id = .ok line := by
  obtain ⟨_, found⟩ := there
  obtain ⟨c, found, _⟩ := map_eq_ok_iff.mp found
  obtain ⟨start, finish⟩ := whole.temporal c (Array.mem_of_getElem? (lookup_eq_ok_iff.mp found))
  exact ⟨_, temporalEntry_eq_ok_iff.mpr ⟨c, _, _, found,
    lookup_eq_ok_iff.mpr (Array.getElem?_eq_getElem start),
    lookup_eq_ok_iff.mpr (Array.getElem?_eq_getElem finish), rfl⟩⟩

end Network

namespace Traversal

/-- The state constraints that a traversal meets are there. -/
theorem has_state_of_collect (whole : n.WellFormed) (done : collect n plan user = .ok t) :
    ∀ id ∈ t.states.toList, ∃ c, n.state id = .ok c := by
  obtain ⟨inner, planned, rest⟩ := collect_eq_ok_iff.mp done
  obtain ⟨_, _, states, _⟩ := meetEndpoints_keeps rest
  intro id member
  rw [states] at member
  obtain ⟨_, _, e, found, own⟩ := ((mem_states_of_meetEpisodes planned).mp member).resolve_left
    OrdSet.not_mem_empty
  have there := (whole.episode found).states id own
  exact ⟨_, lookup_eq_ok_iff.mpr (Array.getElem?_eq_getElem there)⟩

/-- What a traversal meets has lines, and so have other temporal constraints that are there. -/
theorem exists_entries (whole : n.WellFormed) (done : collect n plan user = .ok t)
    {others : OrdSet TemporalId} (there : ∀ id ∈ others.toList, n.Has (.temporal id)) :
    ∃ lines, n.entries t others = .ok lines := by
  obtain ⟨walkable, met⟩ := met_of_collect done
  obtain ⟨has_event, has_temporal⟩ := has_of_collect whole done
  have episode : ∀ id ∈ t.episodes.toList, ∃ line, n.episodeEntry id = .ok line := by
    intro id member
    have inside := ((met.episodes id).mp member).resolve_left OrdSet.not_mem_empty
    obtain ⟨e, found⟩ := walkable.there id inside
    exact ⟨_, bind_eq_ok_iff.mpr ⟨e, found, rfl⟩⟩
  have event : ∀ id ∈ t.events.toList, ∃ line, n.eventEntry id = .ok line := by
    intro id member
    obtain ⟨_, found⟩ := has_event id member
    obtain ⟨e, found, _⟩ := map_eq_ok_iff.mp found
    exact ⟨_, bind_eq_ok_iff.mpr ⟨e, found, rfl⟩⟩
  have temporal : ∀ id ∈ t.constraints.toList ++ others.toList,
      ∃ line, n.temporalEntry id = .ok line := by
    intro id member
    rcases List.mem_append.mp member with inside | outside
    · exact whole.exists_temporalEntry (has_temporal id inside)
    · exact whole.exists_temporalEntry (there id outside)
  have state : ∀ id ∈ t.states.toList, ∃ line, n.stateEntry id = .ok line := by
    intro id member
    obtain ⟨c, found⟩ := has_state_of_collect whole done id member
    exact ⟨_, bind_eq_ok_iff.mpr ⟨c, found, rfl⟩⟩
  obtain ⟨_, episodes, _⟩ := exists_mapM episode
  obtain ⟨_, events, _⟩ := exists_mapM event
  obtain ⟨_, temporals, _⟩ := exists_mapM temporal
  obtain ⟨_, states, _⟩ := exists_mapM state
  exact ⟨_, entries_eq_ok_iff.mpr ⟨_, _, _, _, episodes, events, temporals, states, rfl⟩⟩

end Traversal

/-! ## Reading -/

theorem Build.fingerprint_eq_ok_iff {digest : String} : fingerprint p = .ok digest q ↔
    ∃ t lines, view p = .ok t q ∧ q.network.entries t p.userConstraints = .ok lines ∧
      digest = fingerprintOf lines := by
  unfold fingerprint
  simp only [Attempt.bind_eq_ok_iff, Attempt.get_eq_ok_iff, Attempt.pure_eq_ok_iff,
    Attempt.read_eq_ok_iff]
  constructor
  · rintro ⟨_, _, ⟨rfl, rfl⟩, t, _, viewed, lines, _, ⟨found, rfl⟩, rfl, rfl⟩
    exact ⟨t, lines, viewed, found, rfl⟩
  · rintro ⟨t, lines, viewed, found, rfl⟩
    exact ⟨p, p, ⟨rfl, rfl⟩, t, q, viewed, lines, q, ⟨found, rfl⟩, rfl, rfl⟩

/-- A traversal that is made anew brings no change if all that it would do has been done. -/
theorem Reached.view_of_stale (reached : Reached .free p waiting) (stale : p.traversal = none)
    (collected : Traversal.collect p.network p.plan p.userConstraints = .ok t)
    (registered : ∀ id ∈ t.episodes.toList, p.Registered id)
    (derived : ∀ id ∈ p.userConstraints.toList, p.network.Derived id) :
    Build.view p = .ok t { p with traversal := some t } := by
  obtain ⟨_, q, viewed, rfl, settled, same⟩ := Build.yields_view stale collected registered derived
  have before : p.network.journal = none := Program.Reachable.idle ⟨_, reached⟩
  have after : q.network.journal = none :=
    Program.Reachable.idle ⟨_, reached.of_ok .view viewed⟩
  rw [viewed, settled, same.eq (after.trans before.symm)]

namespace Program

/-- Whoever finds the result of the last traversal again has lost nothing. -/
theorem Sustains.restored (h : p.Sustains q) : p.Preserves { q with traversal := p.traversal } := by
  rcases h with kept | forgotten
  · exact ⟨rfl, kept.plan, kept.userConstraints, kept.network, kept.registry⟩
  · exact ⟨rfl, forgotten.plan, forgotten.userConstraints, forgotten.network, forgotten.registry⟩

/-- As long as the same is there, what is read is the same. -/
theorem Current.view (current : p.Current t) (sustains : p.Sustains q)
    (reached : Reached .free q waiting) :
    Build.view q = .ok t { q with traversal := some t } := by
  have restored := sustains.restored
  rw [current.cached] at restored
  have again := restored.retains.current current
  rcases sustains with kept | forgotten
  · have cached : q.traversal = some t := kept.traversal.trans current.cached
    rw [← cached]
    exact Build.view_of_cached cached
  · exact reached.view_of_stale forgotten.traversal again.collected again.registered again.derived

end Program

/-! ## Going on -/

/-- The call makes elements, or it is refused and undone. -/
def Call.Quiet (call : Call α) (p : Program) : Prop :=
  call.isAdditive = true ∨ call.isUndone = true ∧ call.run.isRefused p = true

theorem Call.Quiet.sustains {call : Call α} (quiet : call.Quiet p)
    (idle : p.network.journal = none) : p.Sustains (call.run.after p) := by
  rcases quiet with additive | ⟨undone, refused⟩
  · exact call.sustains_of_additive additive idle
  · obtain ⟨fault, q, refused⟩ := Attempt.exists_of_isRefused refused
    rw [Attempt.after_of_error refused]
    exact call.sustains_of_refused undone idle refused

namespace Program

/-- What a program may come to by calls that make elements, and by calls that are refused. -/
inductive Quietly (p : Program) : Program → Prop where
  /-- No call has been made yet. -/
  | start : Quietly p p
  /-- One more call is made. -/
  | call {q : Program} {α : Type} (call : Call α) (before : Quietly p q) (quiet : call.Quiet q) :
      Quietly p (call.run.after q)

namespace Quietly

theorem reached (h : p.Quietly q) (reached : Reached .free p waiting) :
    Reached .free q waiting := by
  induction h with
  | start => exact reached
  | call call _ _ ih => exact ih.call call trivial

theorem sustains (h : p.Quietly q) (reached : Reached .free p waiting) : p.Sustains q := by
  induction h with
  | start => exact .inl (.refl p)
  | call _ before quiet ih =>
    exact ih.trans (quiet.sustains (Reachable.idle ⟨_, before.reached reached⟩))

end Quietly

end Program

/-- What has been read is what a traversal would meet now, or it belongs to a program that
waits, and then it was kept. -/
theorem Reached.current_or_kept (reached : Reached .free p waiting)
    (viewed : Build.view p = .ok t q) : q.Current t ∨ p.traversal = some t ∧
      ∃ w ∈ waiting, w.traversal = some t ∧
        Traversal.collect q.network w.plan w.userConstraints = .ok t := by
  rcases Build.view_eq_ok viewed with ⟨cached, rfl⟩ | ⟨_, current⟩
  · obtain ⟨⟨w, member, kept, collected⟩, derived, registered⟩ := reached.coherent cached
    rcases List.mem_cons.mp member with rfl | outside
    · exact .inl ⟨cached, collected, derived, registered⟩
    · exact .inr ⟨cached, w, outside, kept, collected⟩
  · exact .inl current

/-- Reading is idempotent, and the fingerprint is stable. If a program can be read then a
second read returns the same and changes nothing. There is a fingerprint, and it is the same
after all calls that make elements and after calls that are refused, as long as the result
that was read is kept. If it is made anew then it is the same too, and nothing else of the
program changes, unless it was read before the body of a fragment started and has been kept
since. Then it belongs to a program that waits. -/
theorem Program.reading_is_stable (reached : Reached .free p waiting)
    (viewed : Build.view p = .ok t q) :
    Build.view q = .ok t q ∧ ∃ digest, Build.fingerprint p = .ok digest q ∧
      (∀ r, q.Quietly r → r.traversal = some t → Build.fingerprint r = .ok digest r) ∧
      (Build.view q.stale = .ok t q ∧
          (∀ r, q.Quietly r → Build.fingerprint r = .ok digest { r with traversal := some t }) ∨
        p.traversal = some t ∧ ∃ w ∈ waiting, w.traversal = some t ∧
          Traversal.collect q.network w.plan w.userConstraints = .ok t) := by
  have reached' : Reached .free q waiting := reached.of_ok .view viewed
  have whole : q.network.WellFormed := Reachable.wellFormed ⟨_, reached'⟩
  obtain ⟨cached, _, there⟩ := Build.has_of_view ⟨_, reached⟩ viewed
  obtain ⟨w, _, _, collected⟩ := (reached'.coherent cached).collected
  obtain ⟨lines, found⟩ := Traversal.exists_entries whole collected
    fun id member => there id (OrdSet.mem_union_iff.mpr (.inr member))
  -- whoever reads the same in a program that has come about quietly finds the same lines
  have digest {r s : Program} (quietly : q.Quietly r) (again : Build.view r = .ok t s)
      (same : s.network = r.network) : Build.fingerprint r = .ok (fingerprintOf lines) s := by
    have restored := (quietly.sustains reached').restored
    refine Build.fingerprint_eq_ok_iff.mpr ⟨t, lines, again, ?_, rfl⟩
    rw [same, show r.userConstraints = q.userConstraints from restored.userConstraints]
    exact restored.network.entries found
  have first : Build.fingerprint p = .ok (fingerprintOf lines) q := by
    refine Build.fingerprint_eq_ok_iff.mpr ⟨t, lines, viewed, ?_, rfl⟩
    rwa [← (Build.looks_view.of_ok viewed).userConstraints]
  refine ⟨Build.view_of_cached cached, _, first, fun r quietly kept =>
    digest quietly (Build.view_of_cached kept) rfl, ?_⟩
  refine (reached.current_or_kept viewed).imp_left fun current => ⟨?_, fun r quietly => ?_⟩
  · have touched : Reached .free q.stale waiting := reached'.call .touch trivial
    rw [current.view (.inr (.refl q.stale)) touched, ← cached]
    rfl
  · exact digest quietly (current.view (quietly.sustains reached') (quietly.reached reached')) rfl

/-- A plan of one episode that has been read, after a composition of nothing, which is refused,
and another episode, which is made in the network. -/
def Program.readAndBuilt : Program :=
  (Call.edit (.addEpisode {})).run.after ((Call.sequence [] {}).run.after readOnce)

theorem Program.quietly_readAndBuilt : readOnce.Quietly readAndBuilt :=
  (Quietly.start.call (.sequence [] {}) (.inr ⟨rfl, by decide +kernel⟩)).call
    (.edit (.addEpisode {})) (.inl rfl)

/-- Outside of fragments the plan is read as before, and its fingerprint stays. -/
theorem Program.reading_is_stable_one_episode : ∃ t digest, Reached .free readOnce [] ∧
    Build.view readOnce = .ok t readOnce ∧ Build.view readOnce.stale = .ok t readOnce ∧
    Build.fingerprint readOnce = .ok digest readOnce ∧ readOnce.Quietly readAndBuilt ∧
    readAndBuilt.traversal = none ∧
    Build.fingerprint readAndBuilt = .ok digest { readAndBuilt with traversal := some t } := by
  obtain ⟨t, cached, _⟩ := exists_traversal_readOnce
  have viewed := Build.view_of_cached cached
  obtain ⟨_, digest, first, _, stable⟩ := reading_is_stable reached_readOnce viewed
  obtain ⟨again, later⟩ := stable.resolve_right fun ⟨_, _, waits, _⟩ => List.not_mem_nil waits
  exact ⟨t, digest, reached_readOnce, viewed, again, first, quietly_readAndBuilt,
    Build.traversal_after_edit _, later readAndBuilt quietly_readAndBuilt⟩

/-- In the body of a fragment the result of a traversal outside is read until the program is
made to forget it. Then the plan that is read is that of the body, which has none yet. -/
theorem Program.reading_is_not_stable_in_body : ∃ p waiting t q t' r, Reached .free p waiting ∧
    Build.view p = .ok t q ∧ t.events.toList = [⟨0⟩, ⟨1⟩] ∧
    Build.view (Call.touch.run.after q) = .ok t' r ∧ t'.events.toList = [] := by
  obtain ⟨t, cached, events⟩ := exists_traversal_readOnce
  obtain ⟨viewed, _⟩ := Session.view_setAside cached
  have nothing : (Build.view.result? (Session.setAside readOnce).stale).map (·.events.toList) =
      some [] := by decide +kernel
  obtain ⟨t', returns, none⟩ := Option.map_eq_some_iff.mp nothing
  exact ⟨_, _, t, _, t', _, .enter reached_readOnce, viewed, events,
    Attempt.eq_ok_of_result? returns, none⟩

end PlanNetwork
