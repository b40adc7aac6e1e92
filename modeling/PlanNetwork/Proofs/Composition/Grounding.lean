/-
# Links that apply only where their events exist

A composition makes a link where both its events exist, but goes on to narrow
events afterwards, or to give one of them another guard. A link stays grounded,
which means that it applies only where its events exist, as long as these are
left alone. In a parallel composition and in a branching they are, if the events
at the ends are apart from those inside. Two of their steps do touch the events
of a link: the end of a parallel composition is narrowed again, and so the links
to it follow at the end; and a branch is narrowed to a value, but to no other one
later on.
-/

import PlanNetwork.Proofs.Composition.Narrowing
import PlanNetwork.Proofs.Network.Occurrence

namespace PlanNetwork

open Network

variable {narrowed replaced touched : Guarded → Prop} {n m k : Network} {V : Vocabulary}

namespace Network

/-! ## New links -/

/-- Every temporal constraint that has come in is of the kind, with its start and
its finish. -/
def NewLinks (n m : Network) (kind : TemporalId → EventId → EventId → Prop) : Prop :=
  ∀ link c, n.temporals.size ≤ link.index → m.temporal link = .ok c → kind link c.start c.finish

theorem size_temporals_of_bare (same : m.bare = n.bare) : m.temporals.size = n.temporals.size := by
  simpa [bare] using congrArg (·.temporals.size) same

namespace NewLinks

variable {P Q R : TemporalId → EventId → EventId → Prop}

theorem mono (h : NewLinks n m P) (implies : ∀ link start finish, P link start finish →
    Q link start finish) : NewLinks n m Q :=
  fun link c new found => implies _ _ _ (h link c new found)

/-- If there are no more than before, none has come in. -/
theorem none (le : m.temporals.size ≤ n.temporals.size) : NewLinks n m P :=
  fun _ _ new found => absurd (lookup_index_lt found) (by omega)

/-- Steps that bring in no link do not count. -/
theorem after (h : NewLinks k m P) (le : k.temporals.size ≤ n.temporals.size) : NewLinks n m P :=
  fun link c new found => h link c (Nat.le_trans le new) found

/-- What comes in by two steps comes in by one of them. -/
theorem trans (first : NewLinks n k P) (step : Grows touched k m) (second : NewLinks k m Q)
    (left : ∀ link start finish, k.Has (.temporal link) → P link start finish →
      R link start finish)
    (right : ∀ link start finish, ¬ k.Has (.temporal link) → Q link start finish →
      R link start finish) : NewLinks n m R := by
  intro link c new found
  by_cases older : link.index < k.temporals.size
  · have there : k.temporal link = .ok k.temporals[link.index] :=
      lookup_eq_ok_iff.mpr (Array.getElem?_eq_getElem older)
    obtain ⟨g, found'⟩ := step.temporal there
    obtain rfl := Except.ok.inj (found.symm.trans found')
    exact left link k.temporals[link.index].start k.temporals[link.index].finish
      ⟨_, map_eq_ok_iff.mpr ⟨_, there, rfl⟩⟩ (first link _ new there)
  · refine right _ _ _ ?_ (second link c (Nat.le_of_not_lt older) found)
    rintro ⟨_, there⟩
    obtain ⟨_, there, _⟩ := map_eq_ok_iff.mp there
    exact older (lookup_index_lt there)

/-- A step that only changes guards brings in no link. -/
theorem keep (first : NewLinks n k P) (step : Grows touched k m) (same : m.bare = k.bare)
    (left : ∀ link start finish, k.Has (.temporal link) → P link start finish →
      R link start finish) : NewLinks n m R :=
  first.trans step (.none (P := R) (Nat.le_of_eq (size_temporals_of_bare same))) left
    fun _ _ _ _ => id

end NewLinks

/-- The link applies only where both events exist. -/
def Grounded (n : Network) (link : TemporalId) (start finish : EventId) : Prop :=
  n.Presupposes (.temporal link) (.event start) ∧ n.Presupposes (.temporal link) (.event finish)

theorem Grounded.tightened {link : TemporalId} {start finish : EventId}
    (h : n.Grounded link start finish) (step : Tightened narrowed replaced n m)
    (kept : ¬ replaced (.temporal link))
    (first : ∀ {t}, n.support (.event start) = .ok t → m.support (.event start) = .ok t)
    (last : ∀ {t}, n.support (.event finish) = .ok t → m.support (.event finish) = .ok t) :
    m.Grounded link start finish :=
  ⟨h.1.tightened step kept first, h.2.tightened step kept last⟩

/-- The link applies only where its start exists, and where its finish does. If it
is one that leads on, it may apply where its finish did not exist before. -/
structure Applies (leads : EventId → EventId → Prop) (n m : Network) (link : TemporalId)
    (start finish : EventId) : Prop where
  /-- It applies only where its start exists. -/
  opening : m.Presupposes (.temporal link) (.event start)
  /-- It applies only where its finish exists, or did exist if it leads on. -/
  closing : m.Presupposes (.temporal link) (.event finish) ∨ leads start finish ∧
    ∀ ⦃V⦄, n.Speaks V → ∀ v : Valuation V, m.Occurs v (.temporal link) →
      n.Occurs v (.event finish) → m.Occurs v (.event finish)

section Applies

variable {leads : EventId → EventId → Prop} {link : TemporalId} {start finish : EventId}

theorem Grounded.applies (h : m.Grounded link start finish) : Applies leads n m link start finish :=
  ⟨h.1, .inl h.2⟩

theorem Applies.tightened (h : Applies leads n k link start finish) (there : k.Has (.temporal link))
    (step : Tightened narrowed replaced k m) (kept : ¬ replaced (.temporal link))
    (first : ∀ {t}, k.support (.event start) = .ok t → m.support (.event start) = .ok t)
    (last : ∀ {t}, k.support (.event finish) = .ok t → m.support (.event finish) = .ok t) :
    Applies leads n m link start finish := by
  refine ⟨h.opening.tightened step kept first, h.closing.imp (·.tightened step kept last) ?_⟩
  rintro ⟨on, resumes⟩
  refine ⟨on, fun V speaks v applies before => ?_⟩
  obtain ⟨t, found, holds⟩ := resumes speaks v (step.occurs_before kept there applies) before
  exact ⟨t, last found, holds⟩

end Applies

/-- The element exists only where the literal is true, and its guard shows it. -/
def Demands (n : Network) (element : Guarded) (a : Literal) : Prop :=
  ∃ s, n.support element = .ok s ∧ s.Requires a

theorem Demands.tightened {element : Guarded} {a : Literal} (h : n.Demands element a)
    (step : Tightened narrowed replaced n m) (kept : ¬ replaced element) : m.Demands element a := by
  obtain ⟨s, found, required⟩ := h
  obtain ⟨t, found', refines⟩ := step.refines kept found
  exact ⟨t, found', refines.requires required⟩

end Network

namespace Edit

variable {start finish : EventId} {bounds : Bounds} {id : TemporalId}

theorem newLinks_linkUnder {s : Support} (done : linkUnder start finish bounds s n = .ok id m) :
    NewLinks n m fun link first last => link = id ∧ first = start ∧ last = finish := by
  obtain ⟨_, rfl, rfl⟩ := linkUnder_eq_ok_iff.mp done
  intro link c new found
  have last : link = ⟨n.temporals.size⟩ := by
    have := lookup_index_lt found
    rw [size_withLink] at this
    exact congrArg Handle.mk (show link.index = _ by omega)
  subst last
  obtain rfl := Except.ok.inj (found.symm.trans (lookup_push_self rfl))
  exact ⟨rfl, rfl, rfl⟩

theorem support_of_linkUnder {s : Support} (done : linkUnder start finish bounds s n = .ok id m) :
    m.support (.temporal id) = .ok s := by
  obtain ⟨_, rfl, rfl⟩ := linkUnder_eq_ok_iff.mp done
  exact support_eq_ok_iff.mpr (map_eq_ok_iff.mpr ⟨_, lookup_push_self rfl, rfl⟩)

/-- A link under a support that entails those of its events is grounded. -/
theorem grounded_linkUnder {s first last : Support}
    (done : linkUnder start finish bounds s n = .ok id m)
    (found : n.support (.event start) = .ok first) (found' : n.support (.event finish) = .ok last)
    (entails : s.Entails first) (entails' : s.Entails last) : m.Grounded id start finish := by
  have step : Tightened (fun _ => False) (fun _ => False) n m := (tightens_linkUnder ..).of_ok done
  exact ⟨⟨s, first, support_of_linkUnder done, step.support not_false not_false found, entails⟩,
    ⟨s, last, support_of_linkUnder done, step.support not_false not_false found', entails'⟩⟩

theorem newLinks_link (done : link start finish bounds n = .ok id m) :
    NewLinks n m fun link first last => m.Grounded link first last ∧
      link = id ∧ first = start ∧ last = finish := by
  obtain ⟨both, ends, linked⟩ := Attempt.read_bind_eq_ok_iff.mp done
  obtain ⟨first, last, found, found', narrowed⟩ := endpointSupport_eq_ok_iff.mp ends
  refine (newLinks_linkUnder linked).mono ?_
  rintro _ _ _ ⟨rfl, rfl, rfl⟩
  exact ⟨grounded_linkUnder linked found found' (Support.refines_left_of_tryAnd narrowed).entails
    (Support.refines_right_of_tryAnd narrowed).entails, rfl, rfl, rfl⟩

theorem made_of_link (done : link start finish bounds n = .ok id m) :
    ¬ n.Has (.temporal id) ∧ m.Has (.temporal id) := by
  obtain ⟨both, _, linked⟩ := Attempt.read_bind_eq_ok_iff.mp done
  refine ⟨?_, has_of_support (support_of_linkUnder linked)⟩
  obtain ⟨_, rfl, _⟩ := linkUnder_eq_ok_iff.mp linked
  exact not_has_temporal rfl

theorem newLinks_addDuration {spec : DurationSpec}
    (done : addDuration start finish spec n = .ok id m) : NewLinks n m m.Grounded := by
  obtain ⟨_, _, done⟩ := Attempt.read_bind_eq_ok_iff.mp done
  obtain ⟨both, ends, done⟩ := Attempt.read_bind_eq_ok_iff.mp done
  obtain ⟨_, _, done⟩ := Attempt.read_bind_eq_ok_iff.mp done
  obtain ⟨s, clash, linked⟩ := Attempt.read_bind_eq_ok_iff.mp done
  obtain ⟨first, last, found, found', narrowed⟩ := endpointSupport_eq_ok_iff.mp ends
  have less := Support.refines_left_of_tryAnd (refuseClash_eq_ok_iff.mp clash)
  refine (newLinks_linkUnder linked).mono ?_
  rintro _ _ _ ⟨rfl, rfl, rfl⟩
  exact grounded_linkUnder linked found found'
    (less.trans (Support.refines_left_of_tryAnd narrowed)).entails
    (less.trans (Support.refines_right_of_tryAnd narrowed)).entails

/-- The duration of what is composed applies only where its events exist. -/
theorem newLinks_addComposite {options : CompositionOptions} {composition : Composition}
    {constraints : List TemporalId} {terminal : Bool} {id : EpisodeId}
    (made : addComposite options start finish composition constraints terminal n = .ok id m) :
    NewLinks n m m.Grounded := by
  obtain ⟨_, k, counted, made⟩ := Attempt.bind_eq_ok_iff.mp made
  obtain ⟨_, rfl⟩ := allocateAs_eq_ok_iff.mp counted
  obtain ⟨_, _, made⟩ := Attempt.read_bind_eq_ok_iff.mp made
  obtain ⟨_, _, made⟩ := Attempt.read_bind_eq_ok_iff.mp made
  obtain ⟨duration, k, lasts, pushed⟩ := Attempt.bind_eq_ok_iff.mp made
  obtain ⟨rfl, rfl⟩ := pushEpisode_eq_ok_iff.mp pushed
  -- links do not see the count, nor that the episode comes in
  have links : NewLinks n k k.Grounded :=
    newLinks_addDuration (n := n.withSerial (n.nextSerial + 1)) lasts
  exact links

/-- If the links so far apply where they should, so do those of the composite. -/
theorem applies_addComposite {leads : EventId → EventId → Prop} {options : CompositionOptions}
    {composition : Composition} {constraints : List TemporalId} {terminal : Bool} {id : EpisodeId}
    {m' : Network} (links : NewLinks n k (Applies leads n k))
    (made : addComposite options start finish composition constraints terminal k = .ok id m')
    (ends : Same m' m) : NewLinks n m (Applies leads n m) := by
  have step : Tightened (fun _ => False) (fun _ => False) k m' := (tightens_addComposite ..).of_ok made
  have stop : Tightened (fun _ => False) (fun _ => False) m' m := .of_same ends
  have whole : NewLinks n m' (Applies leads n m') :=
    links.trans step.toGrows (newLinks_addComposite made)
      (fun _ _ _ there applies => applies.tightened there step not_false
        (step.support not_false not_false) (step.support not_false not_false))
      fun _ _ _ _ grounded => grounded.applies
  exact whole.keep stop.toGrows ends.bare fun _ _ _ there applies =>
    applies.tightened there stop not_false (stop.support not_false not_false)
      (stop.support not_false not_false)

/-! ## Parallel compositions -/

theorem presupposes_of_narrow {element other : Guarded} {s : Support} {u : Unit}
    (done : narrow element s n = .ok u m) (found : n.support other = .ok s) :
    m.Presupposes element other := by
  obtain ⟨old, new, there, narrowed, rfl⟩ := narrow_eq_ok_iff.mp done
  have here : ((n.note element (.ofSupport old)).setGuard element (.ofSupport new)).support element = .ok new :=
    support_eq_ok_iff.mpr (guard_setGuard_self (guard_note.trans (support_eq_ok_iff.mp there)))
  by_cases same : element = other
  · exact presupposes_of_support here (same ▸ here)
  · refine ⟨new, s, here, ?_, (Support.refines_right_of_tryAnd narrowed).entails⟩
    rwa [support, guard_setGuard_of_ne same, guard_note]

/-- The opening link of a branch is grounded; the closing one is not yet, but the
common end exists only where the end of the branch does. -/
theorem newLinks_joinBranch {id : EpisodeId} {links : TemporalId × TemporalId}
    (done : joinBranch start finish id n = .ok links m) (apart : start ≠ finish)
    (apart' : ∀ e, n.episode id = .ok e → e.start ≠ finish) :
    links.1 ≠ links.2 ∧ m.Has (.temporal links.2) ∧ NewLinks n m fun link first last =>
      m.Grounded link first last ∧ link = links.1 ∧ first ≠ finish ∧ last ≠ finish ∨
      m.Presupposes (.event finish) (.event first) ∧ link = links.2 ∧ last = finish := by
  obtain ⟨e, k₁, k₂, s, found, opened, closed, there, narrows⟩ := joinBranch_eq_ok done
  have opening : Tightened (fun _ => False) (fun _ => False) n k₁ := (tightens_link ..).of_ok opened
  have closing : Tightened (fun _ => False) (fun _ => False) k₁ k₂ := (tightens_link ..).of_ok closed
  have narrowing : Tightened (.event finish = ·) (fun _ => False) k₂ m :=
    (tightens_narrow (.inl rfl)).of_ok narrows
  have kept {event : EventId} (differ : event ≠ finish) {t : Support}
      (found : k₂.support (.event event) = .ok t) : m.support (.event event) = .ok t :=
    narrowing.support (fun same => differ (Guarded.event.inj same).symm) not_false found
  refine ⟨fun same => (made_of_link closed).1 (same ▸ (made_of_link opened).2),
    narrowing.has (made_of_link closed).2, ?_⟩
  have both := (newLinks_link opened).trans closing.toGrows (newLinks_link closed)
    (R := fun link first last =>
      k₂.Grounded link first last ∧ link = links.1 ∧ first ≠ finish ∧ last ≠ finish ∨
      k₂.support (.event first) = .ok s ∧ link = links.2 ∧ last = finish) ?_ ?_
  · refine both.keep narrowing.toGrows ?_ fun link first last _ => ?_
    · obtain ⟨_, _, _, _, rfl⟩ := narrow_eq_ok_iff.mp narrows
      exact bare_setGuard.trans bare_note
    · rintro (⟨grounded, rest⟩ | ⟨same, rest⟩)
      · exact .inl ⟨grounded.tightened narrowing not_false (kept rest.2.1) (kept rest.2.2), rest⟩
      · exact .inr ⟨presupposes_of_narrow narrows same, rest⟩
  · rintro link _ _ _ ⟨grounded, rfl, rfl, rfl⟩
    exact .inl ⟨grounded.tightened closing not_false (closing.support not_false not_false)
      (closing.support not_false not_false), rfl, apart, apart' e found⟩
  · rintro link _ _ _ ⟨_, rfl, rfl, rfl⟩
    exact .inr ⟨there, rfl, rfl⟩

/-- Once all branches have been joined, the common end exists only where all of
their ends do. -/
theorem newLinks_joinBranches {ids : List EpisodeId} {links : List (TemporalId × TemporalId)}
    (done : joinBranches start finish ids n = .ok links m) (apart : start ≠ finish)
    (apart' : ∀ id ∈ ids, ∀ e, n.episode id = .ok e → e.start ≠ finish) :
    NewLinks n m fun link first last =>
      m.Grounded link first last ∧ (∀ l ∈ links, link ≠ l.2) ∨
      m.Presupposes (.event finish) (.event first) ∧ (∃ l ∈ links, link = l.2) ∧ last = finish := by
  induction ids generalizing n links with
  | nil =>
    obtain ⟨_, rfl⟩ := Attempt.pure_eq_ok_iff.mp done
    exact .none (Nat.le_refl _)
  | cons id rest ih =>
    obtain ⟨l, k, others, joined, remaining, rfl⟩ := joinBranches_cons_eq_ok done
    obtain ⟨here, later⟩ := List.forall_mem_cons.mp apart'
    obtain ⟨differ, made, joins⟩ := newLinks_joinBranch joined apart here
    have step : Tightened (.event finish = ·) (fun _ => False) n k :=
      (tightens_joinBranch (.inl rfl)).of_ok joined
    have steps : Tightened (.event finish = ·) (fun _ => False) k m :=
      (tightens_joinBranches (.inl rfl)).of_ok remaining
    have kept {event : EventId} (differ : event ≠ finish) {t : Support}
        (found : k.support (.event event) = .ok t) : m.support (.event event) = .ok t :=
      steps.support (fun same => differ (Guarded.event.inj same).symm) not_false found
    have rest := ih remaining fun id member e found => by
      obtain ⟨g, found'⟩ := (sameEpisodes_joinBranch joined).symm.episode found
      exact later id member { e with guard := g } found'
    refine joins.trans steps.toGrows rest (fun link first last there => ?_)
      fun link first last new => ?_
    · rintro (⟨grounded, rfl, before, behind⟩ | ⟨presupposes, rfl, rfl⟩)
      · refine .inl ⟨grounded.tightened steps not_false (kept before) (kept behind),
          List.forall_mem_cons.mpr ⟨differ, fun other member same => ?_⟩⟩
        exact new_of_joinBranches remaining other member (same ▸ there)
      · refine .inr ⟨?_, ⟨l, List.mem_cons_self, rfl⟩, rfl⟩
        by_cases same : first = last
        · subst same
          obtain ⟨_, t, _, found, _⟩ := presupposes
          obtain ⟨u, found', _⟩ := steps.refines not_false found
          exact presupposes_of_support found' found'
        · exact presupposes.tightened steps not_false (kept same)
    · rintro (⟨grounded, apart⟩ | ⟨presupposes, ⟨other, member, same⟩, last⟩)
      · exact .inl ⟨grounded, List.forall_mem_cons.mpr ⟨fun same => new (same ▸ made), apart⟩⟩
      · exact .inr ⟨presupposes, ⟨other, List.mem_cons_of_mem _ member, same⟩, last⟩

theorem temporals_eventOrNew {given : Option EventId} {id : EventId}
    (done : eventOrNew given n = .ok id m) : m.temporals = n.temporals := by
  cases given with
  | some id' =>
    obtain ⟨_, rfl⟩ := Attempt.pure_eq_ok_iff.mp done
    rfl
  | none =>
    obtain ⟨_, _, counted, pushed⟩ := Attempt.bind_eq_ok_iff.mp done
    obtain ⟨_, rfl⟩ := allocate_eq_ok_iff.mp counted
    obtain ⟨_, rfl⟩ := pushEvent_eq_ok_iff.mp pushed
    rfl

/-- All the closing links get the support. -/
theorem support_of_each_setSupport {links : List (TemporalId × TemporalId)} {joint : Support} {u : Unit}
    (done : Attempt.each (fun link => setSupport (.temporal link.2) joint) links n = .ok u m) :
    m.bare = n.bare ∧ ∀ link ∈ links, m.support (.temporal link.2) = .ok joint := by
  induction links generalizing n with
  | nil =>
    obtain ⟨_, rfl⟩ := Attempt.pure_eq_ok_iff.mp done
    exact ⟨rfl, nofun⟩
  | cons link rest ih =>
    obtain ⟨_, k, first, later⟩ := Attempt.bind_eq_ok_iff.mp done
    obtain ⟨bare, others⟩ := ih later
    have here := support_of_setSupport first
    obtain ⟨_, _, _, rfl⟩ := setSupport_eq_ok_iff.mp first
    refine ⟨bare.trans (bare_setGuard.trans bare_note), List.forall_mem_cons.mpr ⟨?_, others⟩⟩
    by_cases again : ∃ other ∈ rest, Guarded.temporal other.2 = .temporal link.2
    · obtain ⟨other, member, same⟩ := again
      exact same ▸ others other member
    · exact (tightened_closeLinks later).support not_false again here

/-- The links of a parallel composition are grounded if its end is neither its
start nor that of an episode. -/
theorem newLinks_parallel {leads : EventId → EventId → Prop} {ids : List EpisodeId}
    {options : CompositionOptions} {id : EpisodeId} {e : Episode}
    (done : parallel ids options n = .ok id m) (found : m.episode id = .ok e)
    (apart : e.start ≠ e.finish)
    (apart' : ∀ id ∈ ids, ∀ f, n.episode id = .ok f → f.start ≠ e.finish) :
    NewLinks n m (Applies leads n m) := by
  obtain ⟨_, n', m', begins, ends, start, k₁, finish, k₂, links, k₃, joint, k₄, first, second, joined,
    there, closed, made⟩ := parallel_eq_ok done
  obtain ⟨e', found', rfl, rfl, _⟩ := episode_addComposite made
  obtain rfl := Except.ok.inj (found.symm.trans (ends.episode found'))
  have episodes : SameEpisodes n k₂ := ((SameEpisodes.of_bare begins.bare).trans
    (sameEpisodes_eventOrNew first)).trans (sameEpisodes_eventOrNew second)
  have starts (id) (member : id ∈ ids) (f) (found : k₂.episode id = .ok f) : f.start ≠ e.finish := by
    obtain ⟨g, found'⟩ := episodes.symm.episode found
    exact apart' id member { f with guard := g } found'
  have none : k₂.temporals.size ≤ n.temporals.size := by
    rw [temporals_eventOrNew second, temporals_eventOrNew first]
    exact Nat.le_of_eq (size_temporals_of_bare begins.bare)
  have joins := (newLinks_joinBranches joined apart starts).after none
  obtain ⟨bare, closing⟩ := support_of_each_setSupport closed
  have closes := tightened_closeLinks closed
  have kept {event : EventId} : ¬ ∃ l ∈ links, Guarded.temporal l.2 = .event event :=
    fun ⟨_, _, same⟩ => Guarded.noConfusion same
  have grounded : NewLinks n k₄ k₄.Grounded := by
    refine joins.keep closes.toGrows bare fun link first last _ => ?_
    rintro (⟨grounded, apart⟩ | ⟨presupposes, ⟨l, member, rfl⟩, rfl⟩)
    · refine grounded.tightened closes ?_ (closes.support not_false kept)
        (closes.support not_false kept)
      rintro ⟨l, member, same⟩
      exact apart l member (Guarded.temporal.inj same).symm
    · have last := presupposes_of_support (closing l member) (closes.support not_false kept there)
      exact ⟨last.trans (presupposes.tightened closes kept (closes.support not_false kept)), last⟩
  exact applies_addComposite (grounded.mono fun _ _ _ => Grounded.applies) made ends

/-! ## Branchings -/

theorem newLinks_linkWith {literal : Literal}
    (done : linkWith start finish literal n = .ok id m) :
    NewLinks n m fun link first last => m.Grounded link first last ∧
      m.Demands (.temporal link) literal ∧ first = start ∧ last = finish := by
  obtain ⟨k, linked, added⟩ := linkWith_eq_ok done
  have step : Tightened (.temporal id = ·) (fun _ => False) k m :=
    (tightens_addLiteral (.inl rfl)).of_ok added
  have kept {event : EventId} : ¬ Guarded.temporal id = .event event :=
    fun same => Guarded.noConfusion same
  obtain ⟨old, _, there, changed, rfl⟩ := changeGuard_eq_ok_iff.mp added
  cases changed
  refine (newLinks_link linked).keep step.toGrows (bare_setGuard.trans bare_note) ?_
  rintro _ _ _ _ ⟨grounded, rfl, rfl, rfl⟩
  refine ⟨grounded.tightened step not_false (step.support kept not_false)
    (step.support kept not_false), ⟨old.support.withLiteral literal, ?_,
      Support.requires_withLiteral _ literal⟩, rfl, rfl⟩
  exact support_eq_ok_iff.mpr (guard_setGuard_self (guard_note.trans there))

variable {choice : EventId} {subject : ChoiceVariable} {value : String}

/-- The links of a branch are grounded. The opening one leads to an event that
demands the value of the branch. The closing one demands it itself, and there is
one only if the branch does not end the execution. -/
theorem newLinks_addBranch {id : EpisodeId} {branch : Branch}
    (done : addBranch choice finish subject value id n = .ok branch m)
    (apart : .event finish ∉ n.parts id) :
    branch.value = value ∧ NewLinks n m fun link first last => m.Grounded link first last ∧
      (first = choice ∧ last ≠ finish ∧ m.Demands (.event last) (.is subject value) ∨
        first ≠ finish ∧ last = finish ∧ branch.terminal = false ∧
          m.Demands (.event first) (.is subject value) ∧
          m.Demands (.temporal link) (.is subject value)) := by
  obtain ⟨k, e, opening, k₁, propagated, found, opened, rest⟩ := addBranch_eq_ok done
  have narrowing := narrowed_propagate propagated
  have inside : Tightened (· ∈ n.parts id) (fun _ => False) n k :=
    (tightens_propagate fun _ => .inl).of_ok propagated
  have outside {event : EventId} (part : .event event ∈ k.parts id) : event ≠ finish := by
    rintro rfl
    exact apart ((sameEpisodes_propagate propagated).parts id ▸ part)
  have none : k.temporals.size ≤ n.temporals.size :=
    Nat.le_of_eq (size_temporals_of_bare narrowing.bare)
  have step : Tightened (fun _ => False) (fun _ => False) k k₁ := (tightens_linkWith ..).of_ok opened
  have first : NewLinks n k₁ fun link first last => k₁.Grounded link first last ∧ first = choice ∧
      last ≠ finish ∧ k₁.Demands (.event last) (.is subject value) := by
    refine ((newLinks_linkWith opened).after none).mono ?_
    rintro _ _ _ ⟨grounded, _, rfl, rfl⟩
    exact ⟨grounded, rfl, outside (mem_parts_start found),
      Demands.tightened (narrowing.requires found (.inl rfl)) step not_false⟩
  rcases rest with ⟨_, rfl, rfl⟩ | ⟨_, closing, closed, rfl⟩
  · exact ⟨rfl, first.mono fun _ _ _ ⟨grounded, rest⟩ => ⟨grounded, .inl rest⟩⟩
  · have step' : Tightened (fun _ => False) (fun _ => False) k₁ m :=
      (tightens_linkWith ..).of_ok closed
    refine ⟨rfl, first.trans step'.toGrows (newLinks_linkWith closed) ?_ ?_⟩
    · rintro link first last _ ⟨grounded, begins, differ, demands⟩
      exact ⟨grounded.tightened step' not_false (step'.support not_false not_false)
        (step'.support not_false not_false), .inl ⟨begins, differ, demands.tightened step' not_false⟩⟩
    · rintro _ _ _ _ ⟨grounded, demands, rfl, rfl⟩
      refine ⟨grounded, .inr ⟨outside (mem_parts_finish found), rfl, rfl, ?_, demands⟩⟩
      exact Demands.tightened (narrowing.requires found (.inr rfl)) (step.trans step') not_false

/-- Branches with other values do not touch an event that demands a value. -/
theorem support_of_addBranches {entries : List (String × EpisodeId)} {branches : List Branch}
    {event : EventId} (done : addBranches choice finish subject entries n = .ok branches m)
    (demands : n.Demands (.event event) (.is subject value)) (other : value ∉ entries.map (·.1))
    {t : Support} (found : n.support (.event event) = .ok t) : m.support (.event event) = .ok t := by
  induction entries generalizing n branches with
  | nil =>
    obtain ⟨_, rfl⟩ := Attempt.pure_eq_ok_iff.mp done
    exact found
  | cons entry rest ih =>
    obtain ⟨branch, k, others, added, remaining, rfl⟩ := addBranches_cons_eq_ok done
    obtain ⟨differ, others⟩ := not_or.mp (List.mem_cons.not.mp other)
    obtain ⟨k₀, propagated, links⟩ := exists_propagate_of_addBranch added
    have narrowing := narrowed_propagate propagated
    have inside : Tightened (· ∈ n.parts entry.2) (fun _ => False) n k₀ :=
      (tightens_propagate fun _ => .inl).of_ok propagated
    -- narrowing it would leave it two values of one choice
    have outside : .event event ∉ n.parts entry.2 := by
      intro part
      obtain ⟨old, new, narrowed, there⟩ := narrowing.inside _ part
      obtain ⟨u, there', required⟩ := demands.tightened inside not_false
      obtain rfl := Except.ok.inj (there'.symm.trans there)
      exact differ (Support.eq_of_requires narrowed required
        ((Support.refines_right_of_tryAnd narrowed).requires (Support.requires_ofLiteral _)))
    have step := inside.trans links.widen
    exact ih remaining (demands.tightened step not_false) others (step.support outside not_false found)

/-- The links of all branches are grounded as long as the end is not narrowed. -/
theorem newLinks_addBranches {entries : List (String × EpisodeId)} {branches : List Branch}
    (done : addBranches choice finish subject entries n = .ok branches m)
    (distinct : (entries.map (·.1)).Nodup) (differ : choice ≠ finish)
    (apart : ∀ entry ∈ entries, .event choice ∉ n.parts entry.2 ∧ .event finish ∉ n.parts entry.2) :
    NewLinks n m fun link first last => m.Grounded link first last ∧ first ≠ finish ∧
      (last ≠ finish ∨ last = finish ∧ ∃ branch ∈ branches, branch.terminal = false ∧
        m.Demands (.temporal link) (.is subject branch.value)) := by
  induction entries generalizing n branches with
  | nil =>
    obtain ⟨_, rfl⟩ := Attempt.pure_eq_ok_iff.mp done
    exact .none (Nat.le_refl _)
  | cons entry rest ih =>
    obtain ⟨branch, k, others, added, remaining, rfl⟩ := addBranches_cons_eq_ok done
    obtain ⟨here, later⟩ := List.forall_mem_cons.mp apart
    obtain ⟨other, distinct⟩ := List.nodup_cons.mp distinct
    obtain ⟨value, links⟩ := newLinks_addBranch added here.2
    have episodes := sameEpisodes_addBranch added
    have later' (entry) (member : entry ∈ rest) :
        .event choice ∉ k.parts entry.2 ∧ .event finish ∉ k.parts entry.2 := by
      rw [episodes.parts]
      exact later entry member
    have steps : Tightened (fun element => ∃ entry ∈ rest, element ∈ k.parts entry.2)
        (fun _ => False) k m :=
      (tightens_addBranches fun entry member _ part => .inl ⟨entry, member, part⟩).of_ok remaining
    have keepsChoice {t} : k.support (.event choice) = .ok t → m.support (.event choice) = .ok t :=
      steps.support (fun ⟨entry, member, part⟩ => (later' entry member).1 part) not_false
    have keepsFinish {t} : k.support (.event finish) = .ok t → m.support (.event finish) = .ok t :=
      steps.support (fun ⟨entry, member, part⟩ => (later' entry member).2 part) not_false
    refine links.trans steps.toGrows (ih remaining distinct later') ?_ ?_
    · rintro link first last _ ⟨grounded, ⟨rfl, behind, demands⟩ |
        ⟨before, rfl, goes, demands, demands'⟩⟩
      · exact ⟨grounded.tightened steps not_false keepsChoice
          (support_of_addBranches remaining demands other), differ, .inl behind⟩
      · refine ⟨grounded.tightened steps not_false
          (support_of_addBranches remaining demands other) keepsFinish, before, .inr ⟨rfl, branch,
            List.mem_cons_self, goes, ?_⟩⟩
        rw [value]
        exact demands'.tightened steps not_false
    · rintro link first last _ ⟨grounded, before, behind | ⟨rfl, branch, member, rest⟩⟩
      · exact ⟨grounded, before, .inl behind⟩
      · exact ⟨grounded, before, .inr ⟨rfl, branch, List.mem_cons_of_mem _ member, rest⟩⟩

/-- What demands the value of a branch that goes on is not ruled out with the
values of those that end the execution. -/
theorem entails_exclusion {branches : List Branch} {b : Branch} {t : Support}
    (distinct : (branches.map (·.value)).Nodup) (member : b ∈ branches) (goes : b.terminal = false)
    (required : t.Requires (.is subject b.value)) : t.Entails (.ofConjunction
      (.ofList ((branches.filter (·.terminal)).map (.isNot subject ·.value)))) := by
  intro V v holds
  have excludes : (branches.filter (·.terminal)).map (Literal.isNot subject ·.value) =
      ((branches.filter (·.terminal)).map (·.value)).map (Literal.isNot subject ·) := by
    rw [List.map_map]
    rfl
  rw [excludes, Support.holds_exclusion]
  intro excluded
  obtain ⟨b', ended, value⟩ := List.mem_map.mp excluded
  obtain ⟨member', ends⟩ := List.mem_filter.mp ended
  have taken : v.value subject.key = b.value := required.holds holds
  obtain rfl := List.inj_on_of_nodup_map distinct member' member (value.trans taken)
  rw [goes] at ends
  cases ends

/-- The links of a branching are grounded if neither its choice nor its end is
inside an episode. That the end is kept from the values that end the execution
does no harm, for the links that lead to it demand other values. -/
theorem newLinks_branch {leads : EventId → EventId → Prop} {ids : List EpisodeId}
    {options : CompositionOptions} {id : EpisodeId} {e : Episode}
    (done : branch choice ids options n = .ok id m) (found : m.episode id = .ok e)
    (distinct : ∀ data, n.choice choice = .ok data → data.subject.domain.Nodup)
    (differ : choice ≠ e.finish)
    (apart : ∀ id ∈ ids, .event choice ∉ n.parts id ∧ .event e.finish ∉ n.parts id) :
    NewLinks n m (Applies leads n m) := by
  obtain ⟨data, chosen, same, n', m', begins, ends, finish, k₁, branches, k₂, k₃, first, added, writes,
    made⟩ := branch_eq_ok done
  obtain ⟨e', found', _, rfl, _⟩ := episode_addComposite made
  obtain rfl := Except.ok.inj (found.symm.trans (ends.episode found'))
  have episodes : SameEpisodes n k₁ :=
    (SameEpisodes.of_bare begins.bare).trans (sameEpisodes_eventOrNew first)
  have none : k₁.temporals.size ≤ n.temporals.size := by
    rw [temporals_eventOrNew first]
    exact Nat.le_of_eq (size_temporals_of_bare begins.bare)
  have values : (data.subject.domain.zip ids).map (·.1) = data.subject.domain :=
    List.map_fst_zip (Nat.le_of_eq same)
  have branchValues : branches.map (·.value) = data.subject.domain := by
    rw [← values]
    simpa [Function.comp_def] using congrArg (·.map Prod.fst) (flags_of_addBranches added)
  have links := (newLinks_addBranches added (by rw [values]; exact distinct data chosen) differ
    fun entry member => episodes.parts entry.2 ▸ apart entry.2 (List.of_mem_zip member).2).after none
  refine applies_addComposite (NewLinks.mono ?_ fun _ _ _ => Grounded.applies) made ends
  rcases writes with ⟨_, written⟩ | ⟨_, rfl⟩
  · have step : Tightened (fun _ => False) (.event e.finish = ·) k₂ k₃ :=
      (tightens_setConjunction rfl).of_ok written
    have kept {event : EventId} (apart : event ≠ e.finish) {t : Support} :
        k₂.support (.event event) = .ok t → k₃.support (.event event) = .ok t :=
      step.support not_false fun same => apart (Guarded.event.inj same).symm
    have link {id : TemporalId} : ¬ Guarded.event e.finish = .temporal id :=
      fun same => Guarded.noConfusion same
    have there := support_of_setConjunction written
    obtain ⟨_, _, _, _, rfl⟩ := changeGuard_eq_ok_iff.mp written
    refine links.keep step.toGrows (bare_setGuard.trans bare_note) fun id start finish _ => ?_
    rintro ⟨grounded, before, behind | ⟨rfl, b, member, goes, demands⟩⟩
    · exact grounded.tightened step link (kept before) (kept behind)
    · refine ⟨grounded.1.tightened step link (kept before), ?_⟩
      obtain ⟨t, applies, required⟩ := demands.tightened step link
      exact ⟨t, _, applies, there,
        entails_exclusion (by rw [branchValues]; exact distinct data chosen) member goes required⟩
  · exact links.mono fun _ _ _ ⟨grounded, _⟩ => grounded

end Edit

end PlanNetwork
