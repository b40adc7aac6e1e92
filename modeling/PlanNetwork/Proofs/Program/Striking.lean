/-
# Removing a constraint

A constraint that is removed is struck from the user's constraints and from those of every
episode. Nothing else that was there changes. An episode that the constraint was the
duration of gets a new one, which is behind all constraints that there were. It asks only
that the episode does not end before it starts. Its support is made from those of both
events, where that of the end counts twice, so it is true where both of them are.

All new durations are made before any episode is changed. If one of them cannot be had,
nothing has changed. That is so if and only if the two events of some such episode cannot
be there together: not in the way that supports are narrowed, and, as long as guards speak
of the choices of the network and can be met, under no valuation.
-/

import PlanNetwork.Proofs.Composition.Admission
import PlanNetwork.Proofs.Program.Simplification

namespace PlanNetwork

open Network

variable {V : Vocabulary} {n m : Network} {r : TemporalId} {start finish : EventId}

namespace Network

/-- The episode has a new duration. -/
structure Renewed (n m : Network) (e : Episode) (d : TemporalId) : Prop where
  /-- It is behind the constraints that there were. -/
  new : n.temporals.size ≤ d.index
  /-- It asks only that the episode does not end before it starts. -/
  free : m.Unconstrains d e.start e.finish
  /-- It applies under the valuations under which both events exist. -/
  applies : ∃ s t u, n.support (.event e.start) = .ok s ∧ n.support (.event e.finish) = .ok t ∧
    m.support (.temporal d) = .ok u ∧ ∀ {V : Vocabulary} (v : Valuation V), s.Typed V →
      t.Typed V → (u.Holds v ↔ s.Holds v ∧ t.Holds v)

/-- The constraint has been struck from the episodes. -/
structure Strikes (n : Network) (r : TemporalId) (m : Network) : Prop where
  /-- Only episodes, temporal constraints and the count of serial numbers have changed. -/
  frame : m = { n with
    episodes := m.episodes, temporals := m.temporals, nextSerial := m.nextSerial }
  /-- There are as many episodes as before. -/
  size : m.episodes.size = n.episodes.size
  /-- Temporal constraints that were there are what they were. -/
  temporal : ∀ {id c}, n.temporal id = .ok c → m.temporal id = .ok c
  /-- There is one more for every episode that the constraint was the duration of. -/
  count : m.temporals.size = n.temporals.size + (Edit.episodesLasting n r).length
  /-- Other episodes have the constraint no longer, and are the same otherwise. -/
  other : ∀ {id e}, n.episode id = .ok e → e.duration ≠ r →
    m.episode id = .ok { e with constraints := e.constraints.erase r }
  /-- An episode that it was the duration of has a new one, too. -/
  lasting : ∀ {id e}, n.episode id = .ok e → e.duration = r → ∃ d, Renewed n m e d ∧
    m.episode id = .ok { e with constraints := e.constraints.erase r, duration := d }

/-- What is made from the supports of both events is true where they are. -/
theorem SpansEvents.applies {d : TemporalId} (spans : n.SpansEvents m d start finish) :
    ∃ s t u, n.support (.event start) = .ok s ∧ n.support (.event finish) = .ok t ∧
      m.support (.temporal d) = .ok u ∧ ∀ {V : Vocabulary} (v : Valuation V), s.Typed V →
        t.Typed V → (u.Holds v ↔ s.Holds v ∧ t.Holds v) := by
  obtain ⟨both, last, u, ends, closes, narrowed, support⟩ := spans
  obtain ⟨s, t, starts, finishes, together⟩ := endpointSupport_eq_ok_iff.mp ends
  obtain rfl := Except.ok.inj (finishes.symm.trans closes)
  obtain ⟨_, rfl⟩ := Support.tryAnd_eq_ok_iff.mp together
  obtain ⟨_, rfl⟩ := Support.tryAnd_eq_ok_iff.mp narrowed
  refine ⟨s, t, _, starts, finishes, support, fun v hs ht => ?_⟩
  rw [Support.holds_and_of_typed (hs.and ht) ht, Support.holds_and_of_typed hs ht, and_assoc,
    and_self]

/-- The constraint is gone, for new durations are behind it. -/
theorem Strikes.not_mem (h : n.Strikes r m) (whole : n.WellFormed) {id : EpisodeId} {e' : Episode}
    (found' : m.episode id = .ok e') : r ∉ e'.constraints.toList ∧ e'.duration ≠ r := by
  obtain ⟨e, found⟩ := exists_episode (h.size ▸ index_lt_size found')
  have erased : r ∉ (e.constraints.erase r).toList := by simp
  by_cases lasts : e.duration = r
  · obtain ⟨d, renewed, last⟩ := h.lasting found lasts
    obtain rfl := Except.ok.inj (last.symm.trans found')
    refine ⟨erased, fun same => ?_⟩
    obtain ⟨c, there, _⟩ := (whole.episode found).duration
    have older := lookup_index_lt there
    rw [lasts, ← same] at older
    exact absurd renewed.new (Nat.not_le.mpr older)
  · obtain rfl := Except.ok.inj ((h.other found lasts).symm.trans found')
    exact ⟨erased, lasts⟩

/-- Neither journals nor serial numbers matter. -/
theorem Strikes.commit (h : n.checkpoint.Strikes r m) (idle : n.journal = none) :
    n.Strikes r m.commit := by
  refine ⟨?_, h.size, h.temporal, h.count, h.other, fun found lasts => ?_⟩
  · rw [h.frame, idle]
    rfl
  · obtain ⟨d, ⟨new, free, applies⟩, last⟩ := h.lasting found lasts
    exact ⟨d, ⟨new, free, applies⟩, last⟩

/-! ## Events that a duration can be put between -/

/-- There can be a duration between two events if and only if they exist together under
some valuation. -/
theorem canLast_iff_together (speaks : n.Speaks V) :
    n.CanLast start finish ↔ n.Together V start finish := by
  constructor
  · rintro ⟨both, _, _, ends, _, _⟩
    obtain ⟨s, t, starts, finishes, together⟩ := endpointSupport_eq_ok_iff.mp ends
    have left := speaks.support starts
    have right := speaks.support finishes
    have met := Support.isEmpty_eq_false_of_tryAnd together
    obtain ⟨_, rfl⟩ := Support.tryAnd_eq_ok_iff.mp together
    rw [← Bool.not_eq_true, Support.isEmpty_and_iff left right, not_forall] at met
    obtain ⟨v, holds⟩ := met
    obtain ⟨first, last⟩ := not_not.mp holds
    exact ⟨v, ⟨s, starts, first⟩, t, finishes, last⟩
  · intro together
    obtain ⟨_, _, made, _⟩ :=
      Edit.yields_addDuration_of_together resolve_unconstrained together speaks
    obtain ⟨_, both, last, s, _, ends, closes, narrowed, _⟩ := Edit.addDuration_eq_ok_iff.mp made
    exact ⟨both, last, s, ends, closes, narrowed⟩

end Network

namespace Edit

theorem strikes_of_eq_ok {u : Unit} (done : detachTemporal r n = .ok u m) : n.Strikes r m := by
  obtain ⟨renewals, k, renews, rfl⟩ := detachTemporal_eq_ok done
  obtain ⟨episodes, frame, size⟩ := strike_frame r renewals k
  have temporals : (strike r renewals k).temporals = k.temporals := by rw [frame]
  refine ⟨?_, ?_, fun {id c} old => ?_, ?_, fun {id e} found differs => ?_,
    fun {id e} found lasts => ?_⟩
  · rw [frame, renews.frame]
  · rw [frame, size, renews.episodes]
  · exact (congrArg (lookup · id) temporals).trans (renews.temporal old)
  · rw [temporals, renews.count]
  · rcases episode_strike renews found with ⟨_, last⟩ | ⟨lasts, _⟩
    · exact last
    · exact absurd lasts differs
  · rcases episode_strike renews found with ⟨differs, _⟩ | ⟨_, d, member, last⟩
    · exact absurd lasts differs
    · obtain ⟨new, _, there, ⟨c, made, rest⟩, spans⟩ := renews.fresh _ member
      obtain rfl := Except.ok.inj (found.symm.trans there)
      have written {c : TemporalConstraint} (made : k.temporal d = .ok c) :
          (strike r renewals k).temporal d = .ok c :=
        (congrArg (lookup · d) temporals).trans made
      obtain ⟨s, t, u, starts, finishes, support, applies⟩ := spans.applies
      refine ⟨d, ⟨new, ⟨c, written made, rest⟩, s, t, u, starts, finishes, ?_, applies⟩, last⟩
      obtain ⟨g, guarded, same⟩ := map_eq_ok_iff.mp support
      obtain ⟨c', made', own⟩ := map_eq_ok_iff.mp guarded
      exact map_eq_ok_iff.mpr ⟨g, map_eq_ok_iff.mpr ⟨c', written made', own⟩, same⟩

theorem strikes_of_atomically {u : Unit} (idle : n.journal = none)
    (done : atomically (detachTemporal r) n = .ok u m) : n.Strikes r m := by
  rcases of_atomically_eq_ok done with plain | ⟨k, inner, rfl⟩
  · exact strikes_of_eq_ok plain
  · exact (strikes_of_eq_ok inner).commit idle

/-- Taking a constraint away is refused if and only if some episode that it is the duration
of cannot have another one. -/
theorem detachTemporal_refused_iff : (∃ fault m, detachTemporal r n = .error fault m) ↔
    ∃ id e, n.episode id = .ok e ∧ e.duration = r ∧ ¬ n.CanLast e.start e.finish := by
  constructor
  · rintro ⟨fault, m, refused⟩
    exact exists_not_canLast_of_detachTemporal refused
  · rintro ⟨id, e, found, lasts, unable⟩
    cases result : detachTemporal r n with
    | error fault m => exact ⟨fault, m, rfl⟩
    | ok u m =>
      obtain ⟨renewals, k, renews, _⟩ := detachTemporal_eq_ok result
      have member : id ∈ renewals.map Prod.fst :=
        renews.keys ▸ mem_episodesLasting_iff.mpr ⟨e, found, lasts⟩
      obtain ⟨renewal, renewed, rfl⟩ := List.mem_map.mp member
      obtain ⟨_, _, there, _, both, last, s, ends, closes, narrowed, _⟩ :=
        renews.fresh renewal renewed
      obtain rfl := Except.ok.inj (found.symm.trans there)
      exact absurd ⟨both, last, s, ends, closes, narrowed⟩ unable

end Edit

namespace Program

open Build

variable {p q : Program}

/-- The constraint has been removed from the program. -/
structure Strikes (p : Program) (r : TemporalId) (q : Program) : Prop where
  /-- Only the network, the user's constraints and what is kept of a traversal have changed. -/
  frame : q = { p with
    network := q.network, userConstraints := p.userConstraints.erase r, traversal := none }
  /-- The constraint has been struck from the episodes. -/
  network : p.network.Strikes r q.network

theorem strikes_of_removeConstraint {u : Unit} (idle : p.network.journal = none)
    (done : removeConstraint r p = .ok u q) : p.Strikes r q := by
  obtain ⟨_, _, detached, dropped⟩ := Attempt.bind_eq_ok_iff.mp done
  obtain ⟨m, inner, rfl⟩ := Attempt.focus_eq_ok_iff.mp detached
  obtain rfl := Attempt.modify_eq_ok_iff.mp dropped
  exact ⟨rfl, Edit.strikes_of_atomically idle inner⟩

theorem removeConstraint_refused_iff (idle : p.network.journal = none) :
    (∃ fault q, removeConstraint r p = .error fault q) ↔ ∃ id e,
      p.network.episode id = .ok e ∧ e.duration = r ∧ ¬ p.network.CanLast e.start e.finish := by
  constructor
  · rintro ⟨fault, q, refused⟩
    rcases Attempt.bind_eq_error_iff.mp refused with stopped | ⟨_, _, _, ⟨⟨⟩⟩⟩
    obtain ⟨_, inner, _⟩ := Attempt.focus_eq_error_iff.mp stopped
    exact Edit.exists_not_canLast_of_atomically inner
  · intro unable
    -- the journal makes no difference to what can last
    obtain ⟨fault, m, inner⟩ := Edit.detachTemporal_refused_iff (n := p.network.checkpoint).mpr unable
    have refused : Edit.atomically (Edit.detachTemporal r) p.network = .error fault m.rollback := by
      rw [Edit.atomically_of_idle idle]
      exact Attempt.bracket_eq_error_iff.mpr ⟨m, inner, rfl⟩
    exact ⟨fault, _, Attempt.bind_eq_error_iff.mpr
      (.inl (Attempt.focus_eq_error_iff.mpr ⟨_, refused, rfl⟩))⟩

/-- Removing a constraint detaches it everywhere and changes nothing else. If it succeeds,
neither the user nor an episode has the constraint any more, each episode whose duration it
was has a new one under which nothing else is asked, where both of its events exist, and all
the rest is as it was. If it is refused, everything is as it was, but for serial numbers
given out. Where guards can be met and speak of choices of the network and their values, it
is refused if and only if it is the duration of some episode whose events exist together
under no valuation. -/
theorem removal_strikes_exactly (reachable : p.Reachable .free) (r : TemporalId) :
    (∀ u q, removeConstraint r p = .ok u q → q.Lacks r ∧ p.Strikes r q) ∧
    (∀ fault q, removeConstraint r p = .error fault q → p.Spends q) ∧
    (p.network.Sensible → ∀ V : Vocabulary, V.Suits p.network →
      ((∃ fault q, removeConstraint r p = .error fault q) ↔ ∃ id e,
        p.network.episode id = .ok e ∧ e.duration = r ∧
          ∀ v : Valuation V, ¬ (p.network.Occurs v (.event e.start) ∧
            p.network.Occurs v (.event e.finish)))) := by
  refine ⟨fun u q done => ?_, fun fault q refused => ?_, fun sensible V suits => ?_⟩
  · have strikes := strikes_of_removeConstraint reachable.idle done
    refine ⟨⟨?_, fun id e found => strikes.network.not_mem reachable.wellFormed found⟩, strikes⟩
    rw [strikes.frame]
    simp
  · exact spends_of_removeConstraint reachable.idle refused
  · rw [removeConstraint_refused_iff reachable.idle]
    refine exists_congr fun id => exists_congr fun e => and_congr_right fun _ =>
      and_congr_right fun _ => ?_
    rw [canLast_iff_together (sensible.uses suits).speaks, Together, not_exists]

/-! ## A duration that can be replaced, and one that cannot -/

/-- An episode that has a duration. -/
def timed : Program :=
  (ofConfig {}).afterCalls [
    ⟨_, .addEpisode { duration := some { lower := some .zero, upper := some .zero } }⟩]

theorem sensible_torn : torn.network.Sensible where
  live := by
    have only : ∀ element g, torn.network.guard element = .ok g → g.support.Only fun a =>
        a = .is (asked 1 "x") "A" ∨ a = .is (asked 1 "x") "B" :=
      forall_guard_iff.mpr
        ⟨by decide +kernel, by decide +kernel, by decide +kernel, by decide +kernel⟩
    have live (value : String) (inside : value ∈ ["A", "B"]) :
        torn.network.Live (.is (asked 1 "x") value) :=
      live_of_choice ⟨0⟩ (by decide +kernel) inside
    refine fun element g found => (only element g found).mono ?_
    rintro _ (rfl | rfl)
    · exact live "A" (by decide)
    · exact live "B" (by decide)
  met := forall_guard_iff.mpr
    ⟨by decide +kernel, by decide +kernel, by decide +kernel, by decide +kernel⟩

theorem suits_torn : Vocabulary.binary.Suits torn.network := by
  have domains : ∀ c ∈ torn.network.events.toList.filterMap (·.choice),
      c.subject.domain = ["A", "B"] := by decide +kernel
  intro id data found
  exact (domains data (mem_choices found)).symm

/-- The duration of an episode is replaced, if that can be. The one of an episode between
events of two values of a choice cannot be, but a second constraint on these events can be
removed. -/
theorem removal_strikes_exactly_torn :
    (timed.Reachable .free ∧ ∃ u q, removeConstraint ⟨0⟩ timed = .ok u q ∧
      (q.Lacks ⟨0⟩ ∧ timed.Strikes ⟨0⟩ q) ∧ q.network.temporals.size = 2) ∧
    torn.Reachable .free ∧
    (∃ u q, removeConstraint ⟨0⟩ torn = .ok u q ∧ (q.Lacks ⟨0⟩ ∧ torn.Strikes ⟨0⟩ q) ∧
      q.network.temporals.size = 2) ∧
    torn.network.Sensible ∧ Vocabulary.binary.Suits torn.network ∧
    ∃ fault q, removeConstraint ⟨1⟩ torn = .error fault q ∧ torn.Spends q ∧ ∃ id e,
      torn.network.episode id = .ok e ∧ e.duration = ⟨1⟩ ∧
        ∀ v : Valuation .binary, ¬ (torn.network.Occurs v (.event e.start) ∧
          torn.network.Occurs v (.event e.finish)) := by
  have fresh : timed.Reachable .free :=
    (reachable_of_config (by decide +kernel)).afterCalls fun _ _ => trivial
  have reachable : torn.Reachable .free :=
    (reachable_of_config (by decide +kernel)).afterCalls fun _ _ => trivial
  obtain ⟨replaced, _⟩ := removal_strikes_exactly fresh ⟨0⟩
  obtain ⟨removed, _⟩ := removal_strikes_exactly reachable ⟨0⟩
  obtain ⟨_, spends, refused⟩ := removal_strikes_exactly reachable ⟨1⟩
  obtain ⟨u, done⟩ := Attempt.exists_eq_ok_after (removeConstraint ⟨0⟩) timed (by decide +kernel)
  obtain ⟨u', done'⟩ := Attempt.exists_eq_ok_after (removeConstraint ⟨0⟩) torn (by decide +kernel)
  obtain ⟨fault, q, stopped⟩ := Attempt.exists_of_isRefused
    (by decide +kernel : (removeConstraint ⟨1⟩).isRefused torn = true)
  exact ⟨⟨fresh, u, _, done, replaced u _ done, by decide +kernel⟩, reachable,
    ⟨u', _, done', removed u' _ done', by decide +kernel⟩, sensible_torn, suits_torn, fault, q,
    stopped, spends fault q stopped,
    (refused sensible_torn .binary suits_torn).mp ⟨fault, q, stopped⟩⟩

end Program

end PlanNetwork
