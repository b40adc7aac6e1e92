/-
# When everything side by side is finished

The end of a parallel composition is to exist where all its episodes end. It is made first
and narrowed while the links to it are being made, so most of these get a support at first
that is not that of the end, and it has to be written again when the end is complete.

Let the guards speak of the choices of the network only and hold nothing that cannot be
met. Then a composition of episodes that do not end the execution is refused just where
there is no valuation under which all of them end, and the order in which they are listed
does not show in the support of the end. It shows if an episode is listed twice, for a
support that is narrowed to itself may become another one.
-/

import Mathlib.Data.List.Perm.Basic
import PlanNetwork.Proofs.Composition.Joining

namespace PlanNetwork

open Network

variable {V : Vocabulary} {n n' m k k' : Network} {start finish : EventId} {id : EpisodeId}
  {ids : List EpisodeId} {options : CompositionOptions} {fault : Fault} {s : Support}
  {pairs : List (TemporalId × TemporalId)} {bounds : Bounds}

namespace Network

/-- What has become of a parallel composition. Its end exists where all episodes end, the
links to it have its support, and those from its start have the supports of the starts that
they lead to. -/
structure Completes (V : Vocabulary) (n m : Network) (ids : List EpisodeId) (e : Episode)
    (s : Support) : Prop where
  /-- The end has the support. -/
  finish : m.support (.event e.finish) = .ok s
  /-- The support holds where all episodes end. -/
  exact : ∀ v : Valuation V, s.Holds v ↔ ∀ id ∈ ids, n.Ends v id
  /-- The internal constraints are a link from the start to each episode and a link from
  each episode to the end. -/
  links : ∃ pairs : List (TemporalId × TemporalId),
    e.constraints = .ofList (pairs.map (·.1) ++ pairs.map (·.2)) ∧
    List.Forall₂ (fun id pair => ∃ f t, n.episode id = .ok f ∧
      n.support (.event f.start) = .ok t ∧ m.support (.event f.start) = .ok t ∧
      m.Links pair.1 e.start f.start t ∧ m.Links pair.2 f.finish e.finish s) ids pairs

end Network

namespace Edit

/-! ## Before and after the episodes are joined -/

section Opening

variable (whole : n.WellFormed) (uses : n.Uses (Literal.Within V)) (viable : n.Viable)
  (unanchored : options.Unanchored) (begins : Same n n')
  (first : eventOrNew options.start n' = .ok start k)
  (second : eventOrNew options.finish k = .ok finish k')

include whole uses viable unanchored begins first second

/-- Between events that have just been made episodes can be joined. -/
theorem joinable_of_eventOrNew (there : ∀ id ∈ ids, ∃ e, n.episode id = .ok e) :
    k'.Joinable V start finish ids ∧ k'.support (.event finish) = .ok .always ∧
      Tightened (fun _ => False) (fun _ => False) n k' := by
  have before : Tightened (fun _ => False) (fun _ => False) n k :=
    .trans (.of_same begins) ((tightens_eventOrNew _).of_ok first)
  have after : Tightened (fun _ => False) (fun _ => False) k k' :=
    (tightens_eventOrNew _).of_ok second
  have ready := before.trans after
  have uses' : k'.Uses (Literal.Within V) := (repeats_eventOrNew _).of_ok second
    ((repeats_eventOrNew _).of_ok first (uses.of_same begins))
  have viable' : k'.Viable :=
    ((viable.of_same begins).evolution ((follows_eventOrNew _).of_ok first).evolution).evolution
      ((follows_eventOrNew _).of_ok second).evolution
  rw [unanchored.start] at first
  rw [unanchored.finish] at second
  obtain ⟨_, _, starts, _⟩ := yields_addEvent.of_eq_ok first
  obtain ⟨_, new, finishes, _⟩ := yields_addEvent.of_eq_ok second
  have other {event : EventId} (there : k.Has (.event event)) : event ≠ finish := by
    rintro rfl
    exact new there
  refine ⟨⟨uses', viable', after.support not_false not_false starts, has_of_support finishes,
    other (has_of_support starts), fun id member => ?_⟩, finishes, ready⟩
  obtain ⟨e, found⟩ := there id member
  obtain ⟨g, found'⟩ := ready.episode found
  have opens := WellFormed.has_event (whole.episode found).start
  have closes := WellFormed.has_event (whole.episode found).finish
  exact ⟨_, found', ready.has opens, ready.has closes, other (before.has opens),
    other (before.has closes)⟩

end Opening

/-- Links that are there can be given any support that is not empty. -/
theorem yields_closeLinks (nonempty : s.isEmpty = false)
    (there : ∀ pair ∈ pairs, n.Has (.temporal pair.2)) :
    (Attempt.each (fun pair => setSupport (.temporal pair.2) s) pairs).Yields n fun _ m =>
      ∀ pair ∈ pairs, m.Has (.temporal pair.2) := by
  refine Attempt.yields_each (fun pair member k there => ?_) there
  obtain ⟨g, found⟩ := there pair member
  refine ⟨(), _, setSupport_eq_ok_iff.mpr ⟨g, found, nonempty, rfl⟩, fun other inside => ?_⟩
  exact Grows.has_of_bare (bare_setGuard.trans bare_note) (there other inside)

/-! ## The composition -/

/-- A composition that is refused is refused for guards, and there is no valuation under
which all episodes end. -/
theorem of_parallel_eq_error (whole : n.WellFormed) (idle : n.journal = none)
    (uses : n.Uses (Literal.Within V)) (viable : n.Viable) (unanchored : options.Unanchored)
    (resolved : (options.duration.getD .unconstrained).resolve = .ok bounds) (nonempty : ids ≠ [])
    (running : ∀ id ∈ ids, n.Flagged id false)
    (refused : parallel ids options n = .error fault m) :
    (∃ clash, fault = .inconsistent clash) ∧ ∀ v : Valuation V, ¬ ∀ id ∈ ids, n.Ends v id := by
  unfold parallel at refused
  rw [if_neg (by simpa using nonempty)] at refused
  have refused := Attempt.of_read_bind_eq_error refused (checkNotTerminal_of_flagged running)
  rw [atomically_of_idle idle] at refused
  obtain ⟨_, stopped, rfl⟩ := Attempt.bracket_eq_error_iff.mp refused
  have begins : Same n n.checkpoint := same_checkpoint n
  rcases Attempt.bind_eq_error_iff.mp stopped with failed | ⟨start, k₁, first, stopped⟩
  · rw [unanchored.start] at failed
    exact absurd failed yields_addEvent.ne_error
  rcases Attempt.bind_eq_error_iff.mp stopped with failed | ⟨finish, k₂, second, stopped⟩
  · rw [unanchored.finish] at failed
    exact absurd failed yields_addEvent.ne_error
  have episodes : SameEpisodes n k₂ := ((SameEpisodes.of_bare begins.bare).trans
    (sameEpisodes_eventOrNew first)).trans (sameEpisodes_eventOrNew second)
  obtain ⟨joinable, always, ready⟩ := joinable_of_eventOrNew whole uses viable unanchored begins
    first second fun id member => (running id member).imp fun _ => And.left
  rcases Attempt.bind_eq_error_iff.mp stopped with failed | ⟨pairs, k₃, joined, stopped⟩
  · obtain ⟨clash, apart⟩ := of_joinBranches_eq_error joinable failed
    refine ⟨clash, fun v ends => apart v ?_ fun id member => ?_⟩
    · exact (occurs_iff_of_support always).mpr (Support.holds_always v)
    · exact (ends_iff_of_tightened whole episodes ready).mpr (ends id member)
  -- once the episodes have been joined, nothing is refused any more
  obtain ⟨ends, _, finishes, linked⟩ := joined_joinBranches joinable joined always
  have after := joinable_joinBranches joinable joined
  have stopped := Attempt.of_read_bind_eq_error stopped finishes
  have some : (Support.always.narrowedBy ends).Filled :=
    Support.filled_iff.mpr (after.viable _ _ (support_eq_ok_iff.mp finishes)).some
  rcases Attempt.bind_eq_error_iff.mp stopped with failed | ⟨_, k₄, closed, failed⟩
  · exact absurd failed (yields_closeLinks some (has_of_joined linked)).ne_error
  · have closes := tightened_closeLinks closed
    have uses₄ : k₄.Uses (Literal.Within V) := (repeats_each (fun _ _ =>
      repeats_setSupport _ (after.uses.support finishes)) pairs).of_ok closed after.uses
    have event {event : EventId} {v : Valuation V} (occurs : k₃.Occurs v (.event event)) :
        k₄.Occurs v (.event event) :=
      closes.occurs not_false (by simp) occurs
    obtain ⟨v, occurs⟩ := after.viable.exists_occurs after.uses.speaks after.finishes
    have together : k₄.Together V start finish :=
      ⟨v, event ((occurs_iff_of_support after.starts).mpr (Support.holds_always v)), event occurs⟩
    exact absurd failed (yields_addComposite_of_together resolved together uses₄ ..).ne_error

/-- The end of a composition that succeeds has the supports of the ends of all episodes,
narrowed to each other. -/
theorem completes_of_parallel (whole : n.WellFormed) (uses : n.Uses (Literal.Within V))
    (viable : n.Viable) (unanchored : options.Unanchored)
    (done : parallel ids options n = .ok id m) : ∃ e ends, m.episode id = .ok e ∧
      List.Forall₂ n.EndsUnder ids ends ∧ Completes V n m ids e (Support.always.narrowedBy ends) := by
  have kept : Tightened (fun _ => False) (fun _ => False) n m :=
    tightened_parallel done fun finish given => by
      rw [unanchored.finish] at given
      cases given
  obtain ⟨checked, n', m', begins, last, start, k₁, finish, k₂, pairs, k₃, joint, k₄, first, second,
    joined, finishes, closed, made⟩ := parallel_eq_ok done
  have running := flagged_of_checkNotTerminal checked
  have episodes : SameEpisodes n k₂ := ((SameEpisodes.of_bare begins.bare).trans
    (sameEpisodes_eventOrNew first)).trans (sameEpisodes_eventOrNew second)
  obtain ⟨joinable, always, ready⟩ := joinable_of_eventOrNew whole uses viable unanchored begins
    first second fun id member => (running id member).imp fun _ => And.left
  obtain ⟨ends, under, narrowed, linked⟩ := joined_joinBranches joinable joined always
  obtain rfl := Except.ok.inj (finishes.symm.trans narrowed)
  have under : List.Forall₂ n.EndsUnder ids ends :=
    under.imp fun _ _ ends => ends.earlier whole episodes ready
  obtain ⟨e, found, rfl, rfl, _, constraints, _⟩ := episode_addComposite made
  have closes := tightened_closeLinks closed
  have steps : Tightened (fun _ => False) (fun _ => False) k₄ m :=
    .trans ((tightens_addComposite ..).of_ok made) (.of_same last)
  refine ⟨e, ends, last.episode found, under,
    steps.support not_false not_false (closes.support not_false (by simp) finishes), fun v => ?_,
    pairs, constraints, ?_⟩
  · rw [Support.holds_narrowedBy Support.within_always, forall_ends_iff under,
      and_iff_right (Support.holds_always v)]
    intro t member
    obtain ⟨_, _, _, there⟩ := exists_endsUnder under t member
    exact uses.support there
  -- no opening link is written with the closing ones
  have apart : ∀ p ∈ pairs, ∀ q ∈ pairs, p.1 ≠ q.2 := by
    obtain ⟨children, known⟩ := exists_children (index_lt_of_checkNotTerminal checked)
    refine opening_ne_closing ?_
    rw [(lays_joinBranches episodes known joined).numbered]
    exact nodup_fresh ..
  have written := (support_of_each_setSupport closed).2
  obtain ⟨size, linked⟩ := List.forall₂_iff_zip.mp linked
  refine List.forall₂_iff_zip.mpr ⟨size, fun {id pair} member => ?_⟩
  obtain ⟨f, t, there, starts, opens, spans⟩ := linked member
  obtain ⟨g, there'⟩ := episodes.symm.episode there
  have inside := (List.of_mem_zip member).2
  have starts' : n.support (.event f.start) = .ok t :=
    (ready.support_iff not_false not_false
      (WellFormed.has_event (whole.episode there').start)).mp starts
  refine ⟨_, t, there', starts', kept.support not_false not_false starts', ?_, ?_⟩
  · refine (opens.grows closes.toGrows ?_).grows steps.toGrows (by simp)
    rintro (⟨⟨⟩⟩ | ⟨q, among, same⟩)
    exact apart pair inside q among (Guarded.temporal.inj same).symm
  · exact ⟨steps.support not_false not_false (written pair inside),
      (spans.grows closes.toGrows).grows steps.toGrows⟩

end Edit

/-- A parallel composition ends exactly where all its episodes do. Let a network have come
about in any way, let its guards be in order, and let the episodes not end the execution;
some may be listed several times. The composition, between events of its own, is refused if
and only if there is no valuation under which all of them end, and then because of guards.
Otherwise its end exists under just these valuations, the links from its start have the
supports of the starts of the episodes, and those to its end have just the support of the
end. In any other order the composition succeeds as well, and its end gets the same
support, conjunction by conjunction. -/
theorem parallel_completes_exactly
    (reachable : n.Reachable ∨ ∃ p : Program, p.Reachable .free ∧ p.network = n)
    (sensible : n.Sensible) (nonempty : ids ≠ []) (running : ∀ id ∈ ids, n.Flagged id false)
    (unanchored : options.Unanchored)
    (resolved : (options.duration.getD .unconstrained).resolve = .ok bounds) :
    (∃ V : Vocabulary, V.Suits n) ∧ ∀ V : Vocabulary, V.Suits n →
      ((∃ fault m, Edit.parallel ids options n = .error fault m) ↔
        ¬ ∃ v : Valuation V, ∀ id ∈ ids, n.Ends v id) ∧
      (∀ fault m, Edit.parallel ids options n = .error fault m →
        ∃ clash, fault = .inconsistent clash) ∧
      ∀ id m, Edit.parallel ids options n = .ok id m → ∃ e s, m.episode id = .ok e ∧
        Completes V n m ids e s ∧ ∀ others : List EpisodeId, others.Perm ids →
          ∃ id' m' e', Edit.parallel others options n = .ok id' m' ∧
            m'.episode id' = .ok e' ∧ Completes V n m' others e' s := by
  obtain ⟨whole, idle⟩ := whole_of_reachable reachable
  have keyed := (arises_of_reachable reachable).keyed
  refine ⟨keyed.exists_suits, fun V suits => ?_⟩
  have uses := sensible.uses suits
  have viable := sensible.viable reachable
  have refusal {ids : List EpisodeId} (nonempty : ids ≠ [])
      (running : ∀ id ∈ ids, n.Flagged id false) {fault : Fault} {m : Network}
      (refused : Edit.parallel ids options n = .error fault m) :=
    Edit.of_parallel_eq_error whole idle uses viable unanchored resolved nonempty running refused
  have success {ids : List EpisodeId} {id : EpisodeId} {m : Network}
      (done : Edit.parallel ids options n = .ok id m) :=
    Edit.completes_of_parallel whole uses viable unanchored done
  -- the end of the composition exists under some valuation, as everything does
  have some {id : EpisodeId} {m : Network} (done : Edit.parallel ids options n = .ok id m) :
      ∃ v : Valuation V, ∀ id ∈ ids, n.Ends v id := by
    obtain ⟨e, ends, _, _, completes⟩ := success done
    have viable' : m.Viable :=
      viable.evolution ((Edit.follows_parallel ids options).of_ok done).evolution
    have uses' := (Edit.repeats_parallel ids options).of_ok done uses
    obtain ⟨v, occurs⟩ := viable'.exists_occurs uses'.speaks (has_of_support completes.finish)
    exact ⟨v, (completes.exact v).mp ((occurs_iff_of_support completes.finish).mp occurs)⟩
  refine ⟨⟨?_, ?_⟩, fun fault m refused => (refusal nonempty running refused).1,
    fun id m done => ?_⟩
  · rintro ⟨fault, m, refused⟩ ⟨v, ends⟩
    exact (refusal nonempty running refused).2 v ends
  · intro none
    cases result : Edit.parallel ids options n with
    | ok id m => exact absurd (some result) none
    | error fault m => exact ⟨fault, m, rfl⟩
  · obtain ⟨e, ends, found, under, completes⟩ := success done
    refine ⟨e, _, found, completes, fun others perm => ?_⟩
    cases result : Edit.parallel others options n with
    | error fault m' =>
      obtain ⟨v, all⟩ := some done
      have nonempty' : others ≠ [] := fun none => nonempty (List.nil_perm.mp (none ▸ perm))
      have running' : ∀ id ∈ others, n.Flagged id false :=
        fun id member => running id (perm.mem_iff.mp member)
      exact absurd (fun id member => all id (perm.mem_iff.mp member))
        ((refusal nonempty' running' result).2 v)
    | ok id' m' =>
      obtain ⟨e', ends', found', under', completes'⟩ := success result
      -- the ends of the episodes are listed in the other order
      obtain ⟨listed, under'', perm'⟩ := List.perm_comp_forall₂ perm under
      obtain rfl := (rightUnique_endsUnder n).forall₂ under' under''
      have same : Support.always.narrowedBy ends' = Support.always.narrowedBy ends := by
        refine Support.narrowedBy_perm keyed.unambiguous perm' Support.only_always fun t member => ?_
        obtain ⟨_, f, _, there⟩ := exists_endsUnder under' t member
        exact sensible.live _ _ (support_eq_ok_iff.mp there)
      exact ⟨id', m', e', rfl, found', same ▸ completes'⟩

/-! ## Three episodes side by side -/

/-- Two choices and three episodes. The first episode is executed if either choice takes its
first value, the second one if the first choice does, and the third one if it takes its
second value. -/
@[irreducible] def crossing : Network :=
  (Network.empty .zero).afterCalls [
    ⟨_, .addChoice { domain := ["A", "B"], id := some "x", kind := some .controllable }⟩,
    ⟨_, .addChoice { domain := ["A", "B"], id := some "y", kind := some .controllable }⟩,
    ⟨_, .addEpisode {}⟩, ⟨_, .addEpisode {}⟩, ⟨_, .addEpisode {}⟩,
    ⟨_, .propagate ⟨0⟩ either⟩, ⟨_, .propagate ⟨1⟩ (.ofLiteral (.is (asked 1 "x") "A"))⟩,
    ⟨_, .propagate ⟨2⟩ (.ofLiteral (.is (asked 1 "x") "B"))⟩]

theorem reachable_crossing : crossing.Reachable := by
  unfold crossing
  exact (Reachable.empty _).afterCalls _

theorem uses_crossing : crossing.Uses crossing.Live := by
  have first (value : String) (inside : value ∈ ["A", "B"]) :
      crossing.Live (.is (asked 1 "x") value) := live_of_choice ⟨0⟩ (by decide +kernel) inside
  have second : crossing.Live (.is (asked 2 "y") "A") :=
    live_of_choice ⟨1⟩ (by decide +kernel) (by decide)
  have some : either.Only crossing.Live := only_either_of (first "A" (by decide)) second
  have left := Support.only_ofLiteral (first "A" (by decide))
  have right := Support.only_ofLiteral (first "B" (by decide))
  have offers : crossing.Offers crossing.Live := offers_live crossing
  unfold crossing at some left right offers ⊢
  refine uses_afterCalls (fun call member => ?_) offers
  simp only [List.mem_cons, List.not_mem_nil, or_false] at member
  rcases member with rfl | rfl | rfl | rfl | rfl | rfl | rfl | rfl
  · trivial
  · trivial
  · trivial
  · trivial
  · trivial
  · exact some
  · exact left
  · exact right

theorem sensible_crossing : crossing.Sensible where
  live := uses_crossing.guard
  met := forall_guard_iff.mpr
    ⟨by decide +kernel, by decide +kernel, by decide +kernel, by decide +kernel⟩

theorem suits_crossing : Vocabulary.binary.Suits crossing := suits_of_asked (by decide +kernel)

theorem flagged_crossing : ∀ id ∈ [⟨0⟩, ⟨1⟩, ⟨2⟩], crossing.Flagged id false := by
  have flags : ∀ id ∈ ([⟨0⟩, ⟨1⟩, ⟨2⟩] : List EpisodeId),
      (crossing.episode id).toOption.map (·.terminal) = some false := by decide +kernel
  intro id member
  obtain ⟨e, found, goes⟩ := Option.map_eq_some_iff.mp (flags id member)
  exact ⟨e, toOption_eq_some_iff.mp found, goes⟩

/-- The first episode is listed twice. Narrowing its support to itself leaves a conjunction
more, and another one goes when it is narrowed to that of the second episode; so there are
two in the end, and just these two if the second episode comes first. The second episode and
the third one never end both. -/
theorem parallel_completes_exactly_crossing :
    crossing.Reachable ∧ crossing.Sensible ∧
      (∃ id m e s, Edit.parallel [⟨0⟩, ⟨0⟩, ⟨1⟩] {} crossing = .ok id m ∧ m.episode id = .ok e ∧
        Completes .binary crossing m [⟨0⟩, ⟨0⟩, ⟨1⟩] e s ∧ s.size = 2 ∧
        ∃ id' m' e', Edit.parallel [⟨1⟩, ⟨0⟩, ⟨0⟩] {} crossing = .ok id' m' ∧
          m'.episode id' = .ok e' ∧ Completes .binary crossing m' [⟨1⟩, ⟨0⟩, ⟨0⟩] e' s) ∧
      (∃ clash m, Edit.parallel [⟨1⟩, ⟨2⟩] {} crossing = .error (.inconsistent clash) m) ∧
      ¬ ∃ v : Valuation .binary, ∀ id ∈ [⟨1⟩, ⟨2⟩], crossing.Ends v id := by
  have reachable : crossing.Reachable ∨
      ∃ p : Program, p.Reachable .free ∧ p.network = crossing := .inl reachable_crossing
  have flagged := flagged_crossing
  have unanchored : CompositionOptions.Unanchored {} := ⟨rfl, rfl⟩
  have all (ids : List EpisodeId) (nonempty : ids ≠ []) (among : ids ⊆ [⟨0⟩, ⟨1⟩, ⟨2⟩]) :=
    (parallel_completes_exactly reachable sensible_crossing nonempty
      (fun id member => flagged id (among member)) unanchored resolve_unconstrained).2
      .binary suits_crossing
  refine ⟨reachable_crossing, sensible_crossing, ?_, ?_⟩
  · obtain ⟨_, _, succeeds⟩ := all [⟨0⟩, ⟨0⟩, ⟨1⟩] (by decide) (by decide)
    have done : Edit.parallel [⟨0⟩, ⟨0⟩, ⟨1⟩] {} crossing = .ok ⟨3⟩
        ((Edit.parallel [⟨0⟩, ⟨0⟩, ⟨1⟩] {}).after crossing) :=
      Attempt.eq_ok_of_result? (by decide +kernel)
    obtain ⟨e, s, found, completes, others⟩ := succeeds _ _ done
    refine ⟨_, _, e, s, done, found, completes, ?_, others _ (by decide)⟩
    have size : ((((Edit.parallel [⟨0⟩, ⟨0⟩, ⟨1⟩] {}).after crossing).episode ⟨3⟩).toOption.bind
        fun e => (((Edit.parallel [⟨0⟩, ⟨0⟩, ⟨1⟩] {}).after crossing).support
          (.event e.finish)).toOption.map (·.size)) = some 2 := by decide +kernel
    rw [found] at size
    have size' := (congrArg (fun found => found.toOption.map Support.size) completes.finish).symm.trans size
    exact Option.some.inj size'
  · obtain ⟨refused, fault, _⟩ := all [⟨1⟩, ⟨2⟩] (by decide) (by decide)
    have clashes : (Edit.parallel [⟨1⟩, ⟨2⟩] {}).isRefused crossing = true := by decide +kernel
    obtain ⟨f, m, stopped⟩ := Attempt.exists_of_isRefused clashes
    obtain ⟨clash, rfl⟩ := fault f m stopped
    exact ⟨⟨clash, m, stopped⟩, refused.mp ⟨_, m, stopped⟩⟩

end PlanNetwork
