/-
# Where the links of a composition apply

The links that a composition makes apply only where both their events exist, if
those events are apart from what is narrowed later on. The links between two
episodes of a sequence are the exception. They are made under the support of the
end of the earlier episode. The later episode has been narrowed to it, but it may
have been conditional before, and what its start required then is not in the
link.
-/

import PlanNetwork.Proofs.Composition.Grounding
import PlanNetwork.Proofs.Program.Reachability

namespace PlanNetwork

open Network

variable {n₀ n m k : Network} {closing : Option EventId}

namespace Network

/-- No episode of the list has the event among its parts, and the event is not the
one that is given another guard in the end. -/
def Clear (n : Network) (closing : Option EventId) (event : EventId) (later : List EpisodeId) :
    Prop :=
  (∀ id ∈ later, Guarded.event event ∉ n.parts id) ∧ closing ≠ some event

/-- Where one episode of a sequence leads to the next one, both events are clear of
those behind. -/
def Undisturbed (n : Network) (closing : Option EventId) : List EpisodeId → Prop
  | first :: second :: later =>
    (∀ e, n.episode first = .ok e → n.Clear closing e.finish later) ∧
    (∀ e, n.episode second = .ok e → n.Clear closing e.start later) ∧
    Undisturbed n closing (second :: later)
  | _ => True

section Decidable

/-- A condition on what is looked up can be checked. -/
instance decidableOfFound {ε α : Type} (P : α → Prop) [DecidablePred P] :
    (result : Except ε α) → Decidable (∀ a, result = .ok a → P a)
  | .ok a => decidable_of_iff (P a) ⟨fun holds _ same => Except.ok.inj same ▸ holds, (· a rfl)⟩
  | .error _ => isTrue fun _ same => nomatch same

instance (n : Network) (closing : Option EventId) (event : EventId) (later : List EpisodeId) :
    Decidable (n.Clear closing event later) :=
  inferInstanceAs (Decidable (_ ∧ _))

instance decidableUndisturbed (n : Network) (closing : Option EventId) :
    (ids : List EpisodeId) → Decidable (n.Undisturbed closing ids)
  | [] | [_] => isTrue trivial
  | _ :: second :: later =>
    have := decidableUndisturbed n closing (second :: later)
    inferInstanceAs (Decidable (_ ∧ _ ∧ _))

end Decidable

/-- From the end of an episode of the list to the start of the next one. -/
def Leads (n : Network) (ids : List EpisodeId) (start finish : EventId) : Prop :=
  ∃ first second e f, [first, second] <:+: ids ∧ n.episode first = .ok e ∧
    n.episode second = .ok f ∧ start = e.finish ∧ finish = f.start

theorem Leads.cons {ids : List EpisodeId} {start finish : EventId} (h : n.Leads ids start finish)
    (id : EpisodeId) : n.Leads (id :: ids) start finish := by
  obtain ⟨first, second, e, f, within, rest⟩ := h
  exact ⟨first, second, e, f, within.trans (List.suffix_cons id ids).isInfix, rest⟩

end Network

namespace Edit

variable {gap : Number} {first second : EpisodeId} {c : TemporalId}

/-- Where an episode ends, everything exists that did before the episodes so far
were put one after the other. The link to the next episode applies there, and the
next one exists only there. -/
theorem spares_follow (done : follow gap first second n = .ok c m)
    (spares : ∀ e, n.episode first = .ok e → n₀.Spares n (.event e.finish)) :
    n₀.Spares m (.temporal c) ∧
      ∀ e, m.episode second = .ok e → n₀.Spares m (.event e.finish) := by
  obtain ⟨before, s, k, after, t, found, _, there, propagated, found', there', linked⟩ :=
    follow_eq_ok done
  have narrowing := narrowed_propagate propagated
  have narrows : Tightened (· ∈ n.parts second) (fun _ => False) n k :=
    (tightens_propagate fun _ => .inl).of_ok propagated
  have links : Tightened (fun _ => False) (fun _ => False) k m := (tightens_linkUnder ..).of_ok linked
  have core {V : Vocabulary} (speaks : n₀.Speaks V) : m.Speaks V ∧ ∀ v : Valuation V, s.Holds v →
      ∀ element, n₀.Occurs v element → m.Occurs v element := by
    obtain ⟨speaks, spares⟩ := spares before found speaks
    have step := sparesUnder_propagate propagated speaks (speaks.support there)
    refine ⟨?_, fun v holds element occurs => links.occurs not_false not_false
      (step.occurs holds (spares v ⟨s, there, holds⟩ element occurs))⟩
    obtain ⟨_, _, rfl⟩ := linkUnder_eq_ok_iff.mp linked
    exact step.speaks.withLink (step.speaks.support there')
  refine ⟨fun V speaks => ⟨(core speaks).1, fun v applies => (core speaks).2 v ?_⟩,
    fun e ends V speaks => ⟨(core speaks).1, fun v occurs => (core speaks).2 v ?_⟩⟩
  · obtain ⟨u, found, holds⟩ := applies
    obtain rfl := Except.ok.inj (found.symm.trans (support_of_linkUnder linked))
    obtain ⟨u', found', less⟩ := narrows.refines not_false there
    obtain rfl := Except.ok.inj (found'.symm.trans there')
    exact less.entails v holds
  · obtain ⟨g, same⟩ := (sameEpisodes_linkUnder linked).episode found'
    obtain rfl := Except.ok.inj (ends.symm.trans same)
    have part : .event after.finish ∈ n.parts second := by
      rw [← parts_of_bare narrowing.bare]
      exact mem_parts_finish found'
    obtain ⟨old, new, narrowed, there''⟩ := narrowing.inside _ part
    obtain ⟨u, found, holds⟩ := occurs
    obtain rfl := Except.ok.inj (found.symm.trans (links.support not_false not_false there''))
    exact (Support.refines_right_of_tryAnd narrowed).entails v holds

/-- The link to the next episode applies only where the one before ends. -/
theorem newLinks_follow (done : follow gap first second n = .ok c m) : NewLinks n m
    fun link start finish => m.Presupposes (.temporal link) (.event start) ∧ link = c ∧
      (∃ e, n.episode first = .ok e ∧ start = e.finish) ∧
      ∃ e, n.episode second = .ok e ∧ finish = e.start := by
  obtain ⟨before, s, k, after, t, found, _, _, propagated, found', there', linked⟩ :=
    follow_eq_ok done
  have none : k.temporals.size ≤ n.temporals.size :=
    Nat.le_of_eq (size_temporals_of_bare (narrowed_propagate propagated).bare)
  have step : Tightened (fun _ => False) (fun _ => False) k m := (tightens_linkUnder ..).of_ok linked
  refine ((newLinks_linkUnder linked).after none).mono ?_
  rintro _ _ _ ⟨rfl, rfl, rfl⟩
  obtain ⟨g, same⟩ := (sameEpisodes_propagate propagated).symm.episode found'
  exact ⟨presupposes_of_support (support_of_linkUnder linked)
    (step.support not_false not_false there'), rfl, ⟨_, found, rfl⟩, _, same, rfl⟩

theorem newLinks_followAll {ids : List EpisodeId} {links : List TemporalId}
    (done : followAll gap ids n = .ok links m) (same : SameEpisodes n₀ n)
    (clear : n₀.Undisturbed closing ids)
    (spares : ∀ id ∈ ids.head?, ∀ e, n.episode id = .ok e → n₀.Spares n (.event e.finish)) :
    NewLinks n m fun link start finish => Applies (n₀.Leads ids) n₀ m link start finish ∧
      closing ≠ some start ∧ closing ≠ some finish := by
  induction ids generalizing n links with
  | nil =>
    obtain ⟨_, rfl⟩ := Attempt.pure_eq_ok_iff.mp done
    exact .none (Nat.le_refl _)
  | cons first rest ih =>
    cases rest with
    | nil =>
      obtain ⟨_, rfl⟩ := Attempt.pure_eq_ok_iff.mp done
      exact .none (Nat.le_refl _)
    | cons second rest =>
      obtain ⟨c, k, others, followed, remaining, rfl⟩ := followAll_cons_eq_ok done
      obtain ⟨leaves, arrives, clear⟩ := clear
      obtain ⟨spared, spares⟩ := spares_follow followed (spares first rfl)
      have episodes := same.trans (sameEpisodes_follow followed)
      have steps : Tightened (fun element => ∃ id ∈ rest, element ∈ n₀.parts id) (fun _ => False)
          k m := by
        refine (tightens_followAll fun id member element part => .inl ⟨id, member, ?_⟩).of_ok remaining
        rwa [episodes.parts] at part
      have kept {event : EventId} (clear : n₀.Clear closing event rest) {t : Support} :
          k.support (.event event) = .ok t → m.support (.event event) = .ok t :=
        steps.support (fun ⟨id, member, part⟩ => clear.1 id member part) not_false
      refine (newLinks_follow followed).trans steps.toGrows (ih remaining episodes clear fun id head =>
        Option.some.inj head ▸ spares) ?_ ?_
      · rintro link _ _ there ⟨presupposes, rfl, ⟨e, found, rfl⟩, f, found', rfl⟩
        obtain ⟨_, found⟩ := same.symm.episode found
        obtain ⟨_, found'⟩ := same.symm.episode found'
        have leaves := leaves _ found
        have arrives := arrives _ found'
        have applies : Applies (n₀.Leads (first :: second :: rest)) n₀ k link e.finish f.start :=
          ⟨presupposes, .inr ⟨⟨first, second, _, _, (List.prefix_append _ rest).isInfix, found, found',
            rfl, rfl⟩, fun V speaks v applies => (spared speaks).2 v applies _⟩⟩
        exact ⟨applies.tightened there steps not_false (kept leaves) (kept arrives), leaves.2,
          arrives.2⟩
      · rintro link start finish _ ⟨⟨opening, closing⟩, rest⟩
        exact ⟨⟨opening, closing.imp_right fun ⟨leads, resumes⟩ => ⟨leads.cons first, resumes⟩⟩, rest⟩

/-! ## The ends of a sequence -/

variable {options : CompositionOptions} {V : Vocabulary}

theorem speaks_eventOrNew {given : Option EventId} {id : EventId}
    (done : eventOrNew given n = .ok id m) (speaks : n.Speaks V) : m.Speaks V := by
  cases given with
  | some id' =>
    obtain ⟨_, rfl⟩ := Attempt.pure_eq_ok_iff.mp done
    exact speaks
  | none =>
    obtain ⟨_, _, counted, pushed⟩ := Attempt.bind_eq_ok_iff.mp done
    obtain ⟨_, rfl⟩ := allocate_eq_ok_iff.mp counted
    obtain ⟨_, rfl⟩ := pushEvent_eq_ok_iff.mp pushed
    exact Speaks.pushEvent (n := n.withSerial (n.nextSerial + 1)) speaks Support.within_always

theorem speaks_link {start finish : EventId} {bounds : Bounds} {id : TemporalId}
    (done : link start finish bounds n = .ok id m) (speaks : n.Speaks V) : m.Speaks V := by
  obtain ⟨s, ends, _, _, rfl⟩ := link_eq_ok_iff.mp done
  obtain ⟨first, last, found, found', narrowed⟩ := endpointSupport_eq_ok_iff.mp ends
  exact speaks.withLink ((speaks.support found).tryAnd (speaks.support found') narrowed)

variable {firstStart lastFinish finish : EventId} {opened : EventId × EventId × List TemporalId}

/-- Nothing is narrowed when a sequence is opened. -/
theorem spares_openSequence (done : openSequence options firstStart lastFinish n = .ok opened m)
    (element : Guarded) : n.Spares m element := by
  have step : Tightened (fun _ => False) (fun _ => False) n m :=
    (tightens_openSequence ..).of_ok done
  refine fun V speaks => ⟨?_, fun v _ other occurs => step.occurs not_false not_false occurs⟩
  rcases openSequence_eq_ok done with ⟨_, rfl, _⟩ | ⟨_, _, _, _, _, _, start, finish, linked, _⟩
  · exact speaks
  · exact speaks_link linked (speaks_eventOrNew finish (speaks_eventOrNew start speaks))

theorem newLinks_openSequence (done : openSequence options firstStart lastFinish n = .ok opened m) :
    NewLinks n m fun link start finish => m.Grounded link start finish ∧
      options.mode.getD .shared = .boundary ∧ start = opened.1 ∧ finish = firstStart := by
  rcases openSequence_eq_ok done with ⟨_, rfl, _⟩ | ⟨mode, _, _, _, k₁, k₂, first, second, linked, rfl⟩
  · exact .none (Nat.le_refl _)
  · have none : k₂.temporals.size ≤ n.temporals.size := by
      exact Nat.le_of_eq (by rw [temporals_eventOrNew second, temporals_eventOrNew first])
    exact ((newLinks_link linked).after none).mono fun _ _ _ ⟨grounded, _, start, finish⟩ =>
      ⟨grounded, mode, start, finish⟩

/-- The event that gets another guard when a sequence is closed. -/
def closingEvent (options : CompositionOptions) (finish : EventId) : Option EventId :=
  match options.mode.getD .shared with
  | .shared => none
  | .boundary => some finish

theorem mem_closingEvent_iff {event : EventId} : event ∈ closingEvent options finish ↔
    options.mode.getD .shared = .boundary ∧ finish = event := by
  unfold closingEvent
  cases options.mode.getD .shared <;> simp

theorem tightened_closeSequence {links : List TemporalId}
    (done : closeSequence options lastFinish finish n = .ok links m) :
    Tightened (fun _ => False)
      (fun element => ∃ event ∈ closingEvent options finish, Guarded.event event = element) n m := by
  refine (tightens_closeSequence fun mode => ⟨finish, ?_, rfl⟩).of_ok done
  rw [closingEvent, mode]
  rfl

theorem newLinks_closeSequence {links : List TemporalId}
    (done : closeSequence options lastFinish finish n = .ok links m) : NewLinks n m m.Grounded := by
  rcases closeSequence_eq_ok done with ⟨_, rfl, _⟩ | ⟨_, s, k, _, there, written, linked, _⟩
  · exact .none (Nat.le_refl _)
  have here := support_of_setSupport written
  obtain ⟨old, _, _, rfl⟩ := setSupport_eq_ok_iff.mp written
  -- if the last episode has the same end, that is what has been written
  have last : ((n.note (.event finish) old).setGuard (.event finish) (.ofSupport s)).support
      (.event lastFinish) = .ok s := by
    by_cases same : finish = lastFinish
    · exact same ▸ here
    · rwa [support, guard_setGuard_of_ne fun equal => same (Guarded.event.inj equal), guard_note]
  refine ((newLinks_linkUnder linked).after
    (Nat.le_of_eq (size_temporals_of_bare (bare_setGuard.trans bare_note)))).mono ?_
  rintro _ _ _ ⟨rfl, rfl, rfl⟩
  exact grounded_linkUnder linked last here (.refl s) (.refl s)

/-- The links of a sequence apply where they should if the events that they join
are left alone from then on. -/
theorem newLinks_sequence {ids : List EpisodeId} {id : EpisodeId} {e : Episode}
    (done : sequence ids options n = .ok id m) (found : m.episode id = .ok e)
    (clear : n.Undisturbed (closingEvent options e.finish) ids)
    (opens : options.mode.getD .shared = .boundary → ∀ first ∈ ids.head?, ∀ f,
      n.episode first = .ok f → n.Clear (closingEvent options e.finish) e.start ids.tail ∧
        n.Clear (closingEvent options e.finish) f.start ids.tail) :
    NewLinks n m (Applies (n.Leads ids) n m) := by
  obtain ⟨first, last, n', m', firstEpisode, lastEpisode, isFirst, isLast, begins, ends, there, _,
    opened, k₁, links, k₂, closing, k₃, opening, following, closed, made⟩ := sequence_eq_ok done
  obtain ⟨e', found', isStart, isFinish, _⟩ := episode_addComposite made
  obtain rfl := Except.ok.inj (found.symm.trans (ends.episode found'))
  rw [← isFinish] at closed
  have episodes : SameEpisodes n k₁ :=
    (SameEpisodes.of_bare begins.bare).trans (sameEpisodes_openSequence opening)
  have spares (element : Guarded) : n.Spares k₁ element := fun V speaks => by
    obtain ⟨speaks', spares⟩ := spares_openSequence opening element (speaks.of_same begins)
    exact ⟨speaks', fun v occurs other ⟨s, there, holds⟩ =>
      spares v occurs other ⟨s, begins.adds.support there, holds⟩⟩
  have follows : Tightened (fun element => ∃ id ∈ ids.tail, element ∈ n.parts id) (fun _ => False)
      k₁ k₂ := by
    refine (tightens_followAll fun id member element part => .inl ⟨id, member, ?_⟩).of_ok following
    rwa [episodes.parts] at part
  have inner : NewLinks n k₂ fun link start finish =>
      Applies (n.Leads ids) n k₂ link start finish ∧
        closingEvent options e.finish ≠ some start ∧ closingEvent options e.finish ≠ some finish := by
    refine ((newLinks_openSequence opening).after (Nat.le_of_eq (size_temporals_of_bare begins.bare))).trans
      follows.toGrows (newLinks_followAll following episodes clear fun _ _ _ _ => spares _) ?_
      fun _ _ _ _ applies => applies
    rintro link _ _ _ ⟨grounded, mode, rfl, rfl⟩
    obtain ⟨before, behind⟩ := opens mode first isFirst _ (begins.episode_iff.mp there)
    rw [isStart] at before
    have kept {event : EventId} (clear : n.Clear (closingEvent options e.finish) event ids.tail)
        {t : Support} : k₁.support (.event event) = .ok t → k₂.support (.event event) = .ok t :=
      follows.support (fun ⟨id, member, part⟩ => clear.1 id member part) not_false
    exact ⟨(grounded.tightened follows not_false (kept before) (kept behind)).applies, before.2,
      behind.2⟩
  have closes := tightened_closeSequence closed
  have kept {event : EventId} (apart : closingEvent options e.finish ≠ some event) {t : Support} :
      k₂.support (.event event) = .ok t → k₃.support (.event event) = .ok t :=
    closes.support not_false fun ⟨_, is, same⟩ => apart (Guarded.event.inj same ▸ is)
  refine applies_addComposite (inner.trans closes.toGrows (newLinks_closeSequence closed) ?_
    fun _ _ _ _ => Grounded.applies) made ends
  rintro link start finish there ⟨applies, before, behind⟩
  exact applies.tightened there closes (fun ⟨_, _, same⟩ => Guarded.noConfusion same) (kept before)
    (kept behind)

end Edit

namespace Composing

/-- The events that the links of a composition join are left alone from the time on
when the link is made: they are not inside episodes that are narrowed later, and
they are not the end if it is narrowed or given another guard later. -/
def Apart (n : Network) (start finish : EventId) : Composing → Prop
  | sequence ids options =>
    n.Undisturbed (Edit.closingEvent options finish) ids ∧
    (options.mode.getD .shared = .boundary → ∀ first ∈ ids.head?, ∀ e, n.episode first = .ok e →
      n.Clear (Edit.closingEvent options finish) start ids.tail ∧
      n.Clear (Edit.closingEvent options finish) e.start ids.tail)
  | parallel ids _ => start ≠ finish ∧ ∀ id ∈ ids, ∀ e, n.episode id = .ok e → e.start ≠ finish
  | branch choice ids _ => choice ≠ finish ∧
    ∀ id ∈ ids, Guarded.event choice ∉ n.parts id ∧ Guarded.event finish ∉ n.parts id

instance (n : Network) (start finish : EventId) : (composing : Composing) →
    Decidable (composing.Apart n start finish)
  | sequence _ _ | parallel _ _ | branch _ _ _ => inferInstanceAs (Decidable (_ ∧ _))

/-- From the end of an episode of a sequence to the start of the next one. -/
def Leads (n : Network) : Composing → EventId → EventId → Prop
  | sequence ids _ => n.Leads ids
  | parallel _ _ | branch _ _ _ => fun _ _ => False

/-- Every temporal constraint that a composition has made, the duration of the
composite among them, applies only where both its events exist, if these have been
left alone. The one exception are the links between the episodes of a sequence:
such a link applies only where the earlier episode ends, and there the later one
starts as far as its start existed before. -/
theorem links_apply_where_events_exist {composing : Composing} {id : EpisodeId} {e : Episode}
    (reachable : n.Reachable ∨ ∃ p : Program, p.Reachable .free ∧ p.network = n)
    (done : composing.call.run n = .ok id m) (found : m.episode id = .ok e)
    (apart : composing.Apart n e.start e.finish) :
    NewLinks n m (Applies (composing.Leads n) n m) := by
  cases composing with
  | sequence ids options => exact Edit.newLinks_sequence done found apart.1 apart.2
  | parallel ids options => exact Edit.newLinks_parallel done found apart.1 apart.2
  | branch choice ids options =>
    have whole : n.WellFormed := by
      rcases reachable with built | ⟨p, built, rfl⟩
      · exact built.wellFormed
      · exact built.wellFormed
    exact Edit.newLinks_branch done found (fun _ => whole.nodup_domain) apart.1 apart.2

/-! ## A sequence whose second episode is conditional -/

/-- The choice that the second episode depends on. -/
def reason : ChoiceVariable := ⟨1, "Choice_1", .controllable, ["A", "B"]⟩

/-- A choice and two episodes. -/
@[irreducible] def unconditional : Network :=
  (Network.empty .zero).afterCalls [
    ⟨_, .addChoice { domain := ["A", "B"], kind := some .controllable }⟩,
    ⟨_, .addEpisode {}⟩, ⟨_, .addEpisode {}⟩]

/-- The second episode exists where the choice takes its first value. -/
def conditional : Network := (Edit.propagate ⟨1⟩ (.ofLiteral (.is reason "A"))).after unconditional

/-- The second episode after the first one. -/
def following : Composing := .sequence [⟨0⟩, ⟨1⟩] { mode := some .boundary }

theorem reachable_conditional : conditional.Reachable := by
  have before : unconditional.Reachable := by
    unfold unconditional
    exact (Reachable.empty _).afterCalls _
  exact before.call (.propagate ⟨1⟩ (.ofLiteral (.is reason "A")))

/-- The start of the second episode demands the first value. -/
theorem demands_conditional : conditional.Demands (.event ⟨3⟩) (.is reason "A") := by
  have starts : (conditional.episode ⟨1⟩).toOption.map (·.start) = some ⟨3⟩ := by decide +kernel
  obtain ⟨e, found, start⟩ := Option.map_eq_some_iff.mp starts
  obtain ⟨_, propagated⟩ := Attempt.exists_eq_ok_after
    (Edit.propagate ⟨1⟩ (.ofLiteral (.is reason "A"))) unconditional (by decide +kernel)
  exact (Edit.narrowed_propagate propagated).requires (toOption_eq_some_iff.mp found)
    (.inl start.symm)

theorem links_apply_where_events_exist_following : conditional.Reachable ∧
    ∃ id m e, following.call.run conditional = .ok id m ∧ m.episode id = .ok e ∧
      following.Apart conditional e.start e.finish ∧
      NewLinks conditional m (Applies (following.Leads conditional) conditional m) := by
  let check (id : EpisodeId) : Edit Episode := do
    let e ← Attempt.read (·.episode id)
    if following.Apart conditional e.start e.finish then return e else throw .sequenceEmpty
  obtain ⟨_, done⟩ := Attempt.exists_eq_ok_after (following.call.run >>= check) conditional
    (by decide +kernel)
  obtain ⟨id, m, done, checked⟩ := Attempt.bind_eq_ok_iff.mp done
  obtain ⟨e, found, checked⟩ := Attempt.read_bind_eq_ok_iff.mp checked
  by_cases apart : following.Apart conditional e.start e.finish
  · exact ⟨reachable_conditional, id, m, e, done, found, apart,
      links_apply_where_events_exist (.inl reachable_conditional) done found apart⟩
  · rw [if_neg apart] at checked
    cases checked

/-- The link between the two episodes applies always, but it leads to an event that
exists only where the choice takes its first value. -/
theorem link_applies_without_finish : conditional.Reachable ∧ ∃ id m link c,
    following.call.run conditional = .ok id m ∧ conditional.temporals.size ≤ link.index ∧
    m.temporal link = .ok c ∧ ∃ (V : Vocabulary) (v : Valuation V), m.Occurs v (.temporal link) ∧
      m.Has (.event c.finish) ∧ ¬ m.Occurs v (.event c.finish) := by
  let V : Vocabulary := ⟨fun _ => ["A", "B"], by simp, fun _ => by decide⟩
  let v : Valuation V := ⟨fun _ => "B", fun _ => by simp [V]⟩
  obtain ⟨id, done⟩ := Attempt.exists_eq_ok_after following.call.run conditional (by decide +kernel)
  have links : ((following.call.run.after conditional).temporal ⟨3⟩).toOption.map (fun c =>
      (c.finish, c.guard.support.toList.map (·.toList))) = some (⟨3⟩, [[]]) := by decide +kernel
  obtain ⟨c, found, links⟩ := Option.map_eq_some_iff.mp links
  obtain ⟨finish, literals⟩ := Prod.ext_iff.mp links
  obtain ⟨always, single, none⟩ := List.map_eq_singleton_iff.mp literals
  have found := toOption_eq_some_iff.mp found
  have composed : Edit.sequence [⟨0⟩, ⟨1⟩] { mode := some .boundary } conditional = .ok id _ := done
  have step : Tightened (fun _ => True) (fun _ => False) conditional _ :=
    Edit.tightened_sequence composed (fun _ _ _ _ => .inl trivial) fun _ _ given => nomatch given
  obtain ⟨t, exists', required⟩ := demands_conditional.tightened step not_false
  refine ⟨reachable_conditional, id, _, ⟨3⟩, c, done, by decide +kernel, found, V, v,
    ⟨c.guard.support, map_eq_ok_iff.mpr ⟨c.guard, map_eq_ok_iff.mpr ⟨c, found, rfl⟩, rfl⟩, always, ?_,
      fun a member => ?_⟩, ?_⟩
  · rw [single]
    exact List.mem_singleton_self _
  · rw [none] at member
    cases member
  rw [show c.finish = ⟨3⟩ from finish]
  refine ⟨has_of_support exists', fun ⟨t', there, holds⟩ => ?_⟩
  obtain rfl := Except.ok.inj (exists'.symm.trans there)
  exact absurd (required.holds holds) (show ¬ "B" = "A" by decide)

end Composing

end PlanNetwork
