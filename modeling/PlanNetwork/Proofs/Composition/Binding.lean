/-
# Links that keep events in order

A link that applies keeps its second event from being earlier than its first one.
The links of a composition apply under a valuation if the events that they join
occur when the link is made. They go on to apply, for what is narrowed later is
either something else, or narrowed to a support that holds.

A sequence goes from one episode to the next, and what the next one is narrowed to
holds where the one before ends. In a parallel composition and in a branching what
occurs in the end has occurred all along.
-/

import PlanNetwork.Proofs.Composition.Survival
import PlanNetwork.Proofs.Network.Schedule

namespace PlanNetwork

open Network

variable {V : Vocabulary} {v : Valuation V} {narrowed replaced touched : Guarded → Prop}
  {n m k : Network} {gap : Number} {start finish : EventId} {id : TemporalId}

namespace Network

/-- Whatever occurred under the valuation still does. -/
structure SparesAt (v : Valuation V) (n m : Network) : Prop where
  /-- The guards are within the vocabulary. -/
  speaks : m.Speaks V
  /-- What occurred still does. -/
  occurs : ∀ {element}, n.Occurs v element → m.Occurs v element

namespace SparesAt

theorem of_under {s : Support} (h : Edit.SparesUnder s V n m) (holds : s.Holds v) :
    SparesAt v n m :=
  ⟨h.speaks, h.occurs holds⟩

theorem trans (first : SparesAt v n k) (second : SparesAt v k m) : SparesAt v n m :=
  ⟨second.speaks, second.occurs ∘ first.occurs⟩

theorem of_tightened (step : Tightened (fun _ => False) (fun _ => False) n m)
    (speaks : m.Speaks V) : SparesAt v n m :=
  ⟨speaks, step.occurs not_false not_false⟩

end SparesAt

/-- The link applies, and the time from its first to its second event may be anything
up to the gap. -/
structure Binds (n : Network) (v : Valuation V) (gap : Number) (start finish : EventId)
    (id : TemporalId) : Prop where
  /-- It is there. -/
  there : ∃ c, n.temporal id = .ok c ∧ c.start = start ∧ c.finish = finish ∧
    c.bounds = .precedence gap
  /-- It applies. -/
  occurs : n.Occurs v (.temporal id)

namespace Binds

theorem grows (h : n.Binds v gap start finish id) (step : Grows touched n m)
    (occurs : m.Occurs v (.temporal id)) : m.Binds v gap start finish id := by
  obtain ⟨c, found, ends⟩ := h.there
  obtain ⟨g, found'⟩ := step.temporal found
  exact ⟨⟨_, found', ends⟩, occurs⟩

/-- It goes on to apply if its guard is left alone. -/
theorem tightened (h : n.Binds v gap start finish id) (step : Tightened narrowed replaced n m)
    (untouched : ¬ narrowed (.temporal id)) (kept : ¬ replaced (.temporal id)) :
    m.Binds v gap start finish id :=
  h.grows step.toGrows (step.occurs untouched kept h.occurs)

theorem spared (h : n.Binds v gap start finish id) (step : Grows touched n m)
    (spares : SparesAt v n m) : m.Binds v gap start finish id :=
  h.grows step (spares.occurs h.occurs)

/-- A schedule that meets the link keeps to its bounds. -/
theorem allow {ids : OrdSet TemporalId} {t : Schedule} (h : n.Binds v gap start finish id)
    (member : id ∈ ids.toList) (meets : n.Meets ids v t) :
    (Bounds.precedence gap).Allow (t finish - t start) := by
  obtain ⟨c, found, rfl, rfl, bounds⟩ := h.there
  obtain ⟨s, applies, holds⟩ := h.occurs
  have guard : c.guard.support = s := by
    rw [support, guard, found] at applies
    exact Except.ok.inj applies
  have kind : c.bounds.kind = .controllable := by rw [bounds]; rfl
  have met := meets id member c found kind (guard ▸ holds)
  rwa [bounds] at met

end Binds

/-- The one event is the other, or one of the constraints keeps it from being later. -/
def Precedes (n : Network) (v : Valuation V) (links : OrdSet TemporalId)
    (start finish : EventId) : Prop :=
  start = finish ∨ ∃ gap, ∃ id ∈ links.toList, n.Binds v gap start finish id

theorem Precedes.le {links : OrdSet TemporalId} {t : Schedule}
    (h : n.Precedes v links start finish) (meets : n.Meets links v t) : t start ≤ t finish := by
  rcases h with rfl | ⟨gap, id, member, binds⟩
  · exact le_refl _
  · exact sub_nonneg.mp (Bounds.allow_precedence.mp (binds.allow member meets) |>.1)

/-- An event that something has been done with has occurred if it does in the end. -/
theorem Tightened.occurs_of_support {element : Guarded} {s : Support}
    (step : Tightened narrowed replaced n m) (kept : ¬ replaced element)
    (found : n.support element = .ok s) (occurs : m.Occurs v element) : s.Holds v :=
  (occurs_iff_of_support found).mp (step.occurs_before kept (has_of_support found) occurs)

end Network

namespace Edit

/-! ## Single links -/

theorem binds_linkUnder {s : Support}
    (done : linkUnder start finish (.precedence gap) s n = .ok id m) (holds : s.Holds v) :
    m.Binds v gap start finish id := by
  refine ⟨?_, s, support_of_linkUnder done, holds⟩
  obtain ⟨_, rfl, rfl⟩ := linkUnder_eq_ok_iff.mp done
  exact ⟨_, lookup_push_self rfl, rfl, rfl, rfl⟩

/-- A link between two events applies if they occur then or later. -/
theorem binds_link (done : link start finish (.precedence gap) n = .ok id m)
    (speaks : n.Speaks V) (steps : Tightened narrowed replaced n k)
    (first : ¬ replaced (.event start) ∧ k.Occurs v (.event start))
    (last : ¬ replaced (.event finish) ∧ k.Occurs v (.event finish)) :
    m.Binds v gap start finish id := by
  obtain ⟨both, ends, linked⟩ := Attempt.read_bind_eq_ok_iff.mp done
  obtain ⟨s, t, found, found', narrowed⟩ := endpointSupport_eq_ok_iff.mp ends
  refine binds_linkUnder linked ?_
  rw [Support.holds_tryAnd (speaks.support found) (speaks.support found') narrowed]
  exact ⟨steps.occurs_of_support first.1 found first.2, steps.occurs_of_support last.1 found' last.2⟩

theorem sparesAt_link {bounds : Bounds} (done : link start finish bounds n = .ok id m)
    (speaks : n.Speaks V) : SparesAt v n m :=
  .of_tightened ((tightens_link ..).of_ok done) (speaks_link done speaks)

/-- What is given a support that holds goes on to occur. -/
theorem sparesAt_setSupport {element : Guarded} {s : Support} {u : Unit}
    (done : setSupport element s n = .ok u m) (speaks : n.Speaks V) (within : s.Within V)
    (holds : s.Holds v) : SparesAt v n m := by
  have here := support_of_setSupport done
  have step : Tightened (fun _ => False) (element = ·) n m := (tightens_setSupport rfl).of_ok done
  obtain ⟨old, found, _, rfl⟩ := setSupport_eq_ok_iff.mp done
  refine ⟨speaks.setGuard (map_eq_ok_iff.mpr ⟨old, found, rfl⟩) within, fun {other} occurs => ?_⟩
  by_cases same : element = other
  · exact same ▸ ⟨s, here, holds⟩
  · exact step.occurs not_false same occurs

/-- An event that is made occurs, and one that is given does if it did. -/
theorem occurs_eventOrNew {given : Option EventId} {event : EventId}
    (done : eventOrNew given n = .ok event m)
    (occurs : given = some event → n.Occurs v (.event event)) : m.Occurs v (.event event) := by
  cases given with
  | some other =>
    obtain ⟨rfl, rfl⟩ := Attempt.pure_eq_ok_iff.mp done
    exact occurs rfl
  | none =>
    obtain ⟨_, _, counted, pushed⟩ := Attempt.bind_eq_ok_iff.mp done
    obtain ⟨rfl, rfl⟩ := pushEvent_eq_ok_iff.mp pushed
    exact ⟨.always, support_eq_ok_iff.mpr (guard_event.mpr ⟨_, lookup_eq_ok_iff.mp
      (lookup_push_self rfl), rfl⟩), Support.holds_always v⟩

theorem sparesAt_eventOrNew {given : Option EventId} {event : EventId}
    (done : eventOrNew given n = .ok event m) (speaks : n.Speaks V) : SparesAt v n m :=
  .of_tightened ((tightens_eventOrNew _).of_ok done) (speaks_eventOrNew done speaks)

/-! ## Sequences -/

/-- Where an episode ends, the link to the next one applies, and nothing is lost. -/
theorem binds_follow {first second : EpisodeId} {e : Episode}
    (done : follow gap first second n = .ok id m) (speaks : n.Speaks V)
    (found : n.episode first = .ok e) (occurs : n.Occurs v (.event e.finish)) :
    SparesAt v n m ∧ ∃ f, n.episode second = .ok f ∧ m.Binds v gap e.finish f.start id := by
  obtain ⟨before, s, k, after, t, found', _, there, propagated, behind, there', linked⟩ :=
    follow_eq_ok done
  obtain rfl := Except.ok.inj (found'.symm.trans found)
  have holds : s.Holds v := (occurs_iff_of_support there).mp occurs
  have narrows : SparesAt v n k :=
    .of_under (sparesUnder_propagate propagated speaks (speaks.support there)) holds
  have still : t.Holds v := (occurs_iff_of_support there').mp (narrows.occurs occurs)
  have links : SparesAt v k m := by
    refine .of_tightened ((tightens_linkUnder ..).of_ok linked) ?_
    obtain ⟨_, _, rfl⟩ := linkUnder_eq_ok_iff.mp linked
    exact narrows.speaks.withLink (narrows.speaks.support there')
  obtain ⟨g, same⟩ := (sameEpisodes_propagate propagated).symm.episode behind
  exact ⟨narrows.trans links, _, same, binds_linkUnder linked still⟩

theorem binds_followAll {ids : List EpisodeId} {links : List TemporalId}
    (done : followAll gap ids n = .ok links m) (speaks : n.Speaks V)
    (occurs : ∀ id ∈ ids, ∀ e, n.episode id = .ok e → n.Occurs v (.event e.finish)) :
    SparesAt v n m ∧ ∀ first second, [first, second] <:+: ids → ∃ e f,
      n.episode first = .ok e ∧ n.episode second = .ok f ∧
        ∃ link ∈ links, m.Binds v gap e.finish f.start link := by
  induction ids generalizing n links with
  | nil =>
    obtain ⟨_, rfl⟩ := Attempt.pure_eq_ok_iff.mp done
    exact ⟨⟨speaks, id⟩, fun _ _ within => by simp at within⟩
  | cons first rest ih =>
    cases rest with
    | nil =>
      obtain ⟨_, rfl⟩ := Attempt.pure_eq_ok_iff.mp done
      exact ⟨⟨speaks, id⟩, fun _ _ within => absurd within.length_le (by simp)⟩
    | cons second rest =>
      obtain ⟨c, k, others, followed, remaining, rfl⟩ := followAll_cons_eq_ok done
      obtain ⟨e, _, _, _, _, found, _⟩ := follow_eq_ok followed
      obtain ⟨step, f, found', binds⟩ := binds_follow followed speaks found
        (occurs first List.mem_cons_self e found)
      have episodes := sameEpisodes_follow followed
      obtain ⟨steps, later⟩ := ih remaining step.speaks fun id member e there => by
        obtain ⟨g, there'⟩ := episodes.symm.episode there
        exact step.occurs (occurs id (List.mem_cons_of_mem _ member) { e with guard := g } there')
      have grows : Tightened (fun _ => True) (fun _ => False) k m :=
        (tightens_followAll fun _ _ _ _ => .inl trivial).of_ok remaining
      refine ⟨step.trans steps, fun a b within => ?_⟩
      rcases List.infix_cons_iff.mp within with front | inside
      · obtain ⟨rfl, rest'⟩ := List.cons_prefix_cons.mp front
        obtain ⟨rfl, _⟩ := List.cons_prefix_cons.mp rest'
        exact ⟨e, f, found, found', c, List.mem_cons_self, binds.spared grows.toGrows steps⟩
      · obtain ⟨e', f', there, there', link, member, binds⟩ := later a b inside
        obtain ⟨g, there⟩ := episodes.symm.episode there
        obtain ⟨g', there'⟩ := episodes.symm.episode there'
        exact ⟨_, _, there, there', link, List.mem_cons_of_mem c member, binds⟩

variable {options : CompositionOptions} {firstStart lastFinish : EventId}

section Opening

variable {opened : EventId × EventId × List TemporalId}

theorem sparesAt_openSequence (done : openSequence options firstStart lastFinish n = .ok opened m)
    (speaks : n.Speaks V) : SparesAt v n m :=
  .of_tightened ((tightens_openSequence ..).of_ok done)
    (spares_openSequence done (.event firstStart) speaks).1

/-- The events at the ends of a sequence with boundary events are given or occur, and
the first one is there. -/
theorem occurs_openSequence (done : openSequence options firstStart lastFinish n = .ok opened m)
    (speaks : n.Speaks V) (mode : options.mode.getD .shared = .boundary) :
    m.Has (.event opened.1) ∧ (options.start = some opened.1 ∨ m.Occurs v (.event opened.1)) ∧
      (options.finish = some opened.2.1 ∨ m.Occurs v (.event opened.2.1)) := by
  obtain ⟨start, finish, c, k₁, k₂, begins, ends, linked, rfl⟩ :=
    openSequence_eq_ok_of_boundary done mode
  have first : SparesAt v n k₁ := sparesAt_eventOrNew begins speaks
  have second : SparesAt v k₁ k₂ := sparesAt_eventOrNew ends first.speaks
  have last : SparesAt v k₂ m := sparesAt_link linked second.speaks
  have links : Tightened (fun _ => False) (fun _ => False) k₂ m := (tightens_link ..).of_ok linked
  obtain ⟨_, between, _⟩ := link_eq_ok_iff.mp linked
  obtain ⟨_, _, found, _, _⟩ := endpointSupport_eq_ok_iff.mp between
  refine ⟨links.has (has_of_support found), ?_, ?_⟩
  · by_cases given : options.start = some start
    · exact .inl given
    · exact .inr (last.occurs (second.occurs (occurs_eventOrNew begins fun same => absurd same given)))
  · by_cases given : options.finish = some finish
    · exact .inl given
    · exact .inr (last.occurs (occurs_eventOrNew ends fun same => absurd same given))

/-- The start of a sequence with boundary events comes before that of the first
episode. -/
theorem binds_openSequence (done : openSequence options firstStart lastFinish n = .ok opened m)
    (speaks : n.Speaks V) (mode : options.mode.getD .shared = .boundary)
    (start : m.Occurs v (.event opened.1)) (first : m.Occurs v (.event firstStart)) :
    ∃ link ∈ opened.2.2, m.Binds v options.gap opened.1 firstStart link := by
  obtain ⟨_, _, c, k₁, k₂, begins, ends, linked, rfl⟩ := openSequence_eq_ok_of_boundary done mode
  have step : Tightened (fun _ => False) (fun _ => False) k₂ m := (tightens_link ..).of_ok linked
  exact ⟨c, List.mem_singleton_self c, binds_link linked
    (speaks_eventOrNew ends (speaks_eventOrNew begins speaks)) step ⟨not_false, start⟩
    ⟨not_false, first⟩⟩

end Opening

/-- Where the last episode ends, a sequence with boundary events does too, and the link
to its end applies. -/
theorem binds_closeSequence {links : List TemporalId}
    (done : closeSequence options lastFinish finish n = .ok links m) (speaks : n.Speaks V)
    (occurs : n.Occurs v (.event lastFinish)) : SparesAt v n m ∧
      (options.mode.getD .shared = .boundary →
        ∃ link ∈ links, m.Binds v options.gap lastFinish finish link) := by
  rcases closeSequence_eq_ok done with ⟨shared, rfl, _⟩ | ⟨_, s, k, c, there, written, linked, rfl⟩
  · exact ⟨⟨speaks, id⟩, fun mode => by rw [mode] at shared; cases shared⟩
  have holds : s.Holds v := (occurs_iff_of_support there).mp occurs
  have writes : SparesAt v n k := sparesAt_setSupport written speaks (speaks.support there) holds
  have links : SparesAt v k m := by
    refine .of_tightened ((tightens_linkUnder ..).of_ok linked) ?_
    obtain ⟨_, _, rfl⟩ := linkUnder_eq_ok_iff.mp linked
    exact writes.speaks.withLink (speaks.support there)
  exact ⟨writes.trans links, fun _ => ⟨c, List.mem_singleton_self c, binds_linkUnder linked holds⟩⟩

/-! ## Parallel compositions -/

/-- The links of an episode apply if its events occur then or later. -/
theorem binds_joinBranch {episode : EpisodeId} {links : TemporalId × TemporalId}
    (done : joinBranch start finish episode n = .ok links m) (speaks : n.Speaks V)
    (later : Tightened (fun _ => True) replaced m k) (kept : ∀ event, ¬ replaced (.event event))
    (occurs : k.Occurs v (.event start) ∧ k.Occurs v (.event finish)) :
    ∃ e, n.episode episode = .ok e ∧
      (k.Occurs v (.event e.start) → k.Occurs v (.event e.finish) →
        m.Binds v .infinity start e.start links.1 ∧ m.Binds v .infinity e.finish finish links.2) := by
  obtain ⟨e, k₁, k₂, s, found, opened, closed, there, narrows⟩ := joinBranch_eq_ok done
  have closing : Tightened (fun _ => False) (fun _ => False) k₁ k₂ := (tightens_link ..).of_ok closed
  have narrowing : Tightened (.event finish = ·) (fun _ => False) k₂ m :=
    (tightens_narrow (.inl rfl)).of_ok narrows
  refine ⟨e, found, fun opens closes => ?_⟩
  have rest : Tightened (fun _ => True) replaced k₁ k :=
    closing.widen.trans ((narrowing.mono (fun _ _ _ => .inl trivial) fun _ _ => False.elim).trans later)
  have whole : Tightened (fun _ => True) replaced n k := ((tightens_link ..).of_ok opened).trans rest
  have apart {id : TemporalId} : ¬ Guarded.event finish = .temporal id :=
    fun same => Guarded.noConfusion same
  constructor
  · exact ((binds_link opened speaks whole ⟨kept _, occurs.1⟩ ⟨kept _, opens⟩).tightened
      closing not_false not_false).tightened narrowing apart not_false
  · exact (binds_link closed (speaks_link opened speaks) rest ⟨kept _, closes⟩
      ⟨kept _, occurs.2⟩).tightened narrowing apart not_false

theorem binds_joinBranches {ids : List EpisodeId} {links : List (TemporalId × TemporalId)}
    (done : joinBranches start finish ids n = .ok links m) (uses : n.Uses (Literal.Within V))
    (later : Tightened (fun _ => True) replaced m k) (kept : ∀ event, ¬ replaced (.event event))
    (occurs : k.Occurs v (.event start) ∧ k.Occurs v (.event finish)) :
    ∀ id ∈ ids, ∃ e, n.episode id = .ok e ∧
      (k.Occurs v (.event e.start) → k.Occurs v (.event e.finish) → ∃ l ∈ links,
        m.Binds v .infinity start e.start l.1 ∧ m.Binds v .infinity e.finish finish l.2) := by
  induction ids generalizing n links with
  | nil => nofun
  | cons id rest ih =>
    obtain ⟨l, k₀, others, joined, remaining, rfl⟩ := joinBranches_cons_eq_ok done
    have steps : Tightened (.event finish = ·) (fun _ => False) k₀ m :=
      (tightens_joinBranches (.inl rfl)).of_ok remaining
    have apart {id : TemporalId} : ¬ Guarded.event finish = .temporal id :=
      fun same => Guarded.noConfusion same
    refine List.forall_mem_cons.mpr ⟨?_, fun id member => ?_⟩
    · obtain ⟨e, found, binds⟩ := binds_joinBranch joined uses.speaks
        ((steps.mono (fun _ _ _ => .inl trivial) fun _ _ => False.elim).trans later) kept occurs
      refine ⟨e, found, fun opens closes => ?_⟩
      obtain ⟨first, second⟩ := binds opens closes
      exact ⟨l, List.mem_cons_self, first.tightened steps apart not_false,
        second.tightened steps apart not_false⟩
    · obtain ⟨f, there, binds⟩ := ih remaining ((repeats_joinBranch _ _ _).of_ok joined uses) id member
      obtain ⟨g, there⟩ := (sameEpisodes_joinBranch joined).symm.episode there
      refine ⟨_, there, fun opens closes => ?_⟩
      obtain ⟨l', member', both⟩ := binds opens closes
      exact ⟨l', List.mem_cons_of_mem l member', both⟩

theorem sparesAt_each_setSupport {links : List (TemporalId × TemporalId)} {s : Support} {u : Unit}
    (done : Attempt.each (fun link => setSupport (.temporal link.2) s) links n = .ok u m)
    (speaks : n.Speaks V) (within : s.Within V) (holds : s.Holds v) : SparesAt v n m := by
  induction links generalizing n with
  | nil =>
    obtain ⟨_, rfl⟩ := Attempt.pure_eq_ok_iff.mp done
    exact ⟨speaks, id⟩
  | cons link rest ih =>
    obtain ⟨_, k, first, later⟩ := Attempt.bind_eq_ok_iff.mp done
    have step := sparesAt_setSupport first speaks within holds
    exact step.trans (ih later step.speaks)

/-! ## Branchings -/

variable {choice : EventId} {subject : ChoiceVariable} {value : String}

theorem new_of_linkWith {literal : Literal} (done : linkWith start finish literal n = .ok id m) :
    ¬ n.Has (.temporal id) := by
  obtain ⟨k, linked, _⟩ := linkWith_eq_ok done
  exact (made_of_link linked).1

/-- A link under a literal applies if the literal is true and its events occur then or
later. -/
theorem binds_linkWith {literal : Literal} (done : linkWith start finish literal n = .ok id m)
    (speaks : n.Speaks V) (holds : literal.Holds v)
    (later : Tightened (fun _ => True) (fun _ => False) m k) (first : k.Occurs v (.event start))
    (last : k.Occurs v (.event finish)) : m.Binds v .infinity start finish id := by
  obtain ⟨k₁, linked, added⟩ := linkWith_eq_ok done
  have adds : Tightened (fun _ => True) (fun _ => False) k₁ m :=
    (tightens_addLiteral (.inl trivial)).of_ok added
  have steps : Tightened (fun _ => True) (fun _ => False) n k :=
    ((tightens_link ..).of_ok linked).trans (adds.trans later)
  have binds := binds_link linked speaks steps ⟨not_false, first⟩ ⟨not_false, last⟩
  refine binds.grows adds.toGrows ?_
  obtain ⟨s, there, applies⟩ := binds.occurs
  obtain ⟨old, _, found, changed, rfl⟩ := changeGuard_eq_ok_iff.mp added
  cases changed
  rw [support, found] at there
  obtain rfl := Except.ok.inj there
  exact ⟨_, support_eq_ok_iff.mpr (guard_setGuard_self (guard_note.trans found)),
    Support.holds_withLiteral.mpr ⟨applies, holds⟩⟩

/-- If the value of a branch is taken, each link of it applies if the events that it
joins occur then or later. -/
theorem binds_addBranch {episode : EpisodeId} {branch : Branch}
    (done : addBranch choice finish subject value episode n = .ok branch m)
    (uses : n.Uses (Literal.Within V)) (within : (Literal.is subject value).Within V)
    (taken : v.value subject.key = value) (later : Tightened (fun _ => True) (fun _ => False) m k)
    (choices : k.Occurs v (.event choice)) :
    ∃ e, n.episode episode = .ok e ∧ (k.Occurs v (.event e.start) →
        ∃ link ∈ branch.links, m.Binds v .infinity choice e.start link ∧
          ¬ n.Has (.temporal link)) ∧
      (e.terminal = false → k.Occurs v (.event e.finish) → k.Occurs v (.event finish) →
        ∃ link ∈ branch.links, m.Binds v .infinity e.finish finish link ∧
          ¬ n.Has (.temporal link)) := by
  obtain ⟨k₀, e, opening, k₁, propagated, found, opened, rest⟩ := addBranch_eq_ok done
  have before : Tightened (fun _ => True) (fun _ => False) n k₀ :=
    (tightens_propagate fun _ _ => .inl trivial).of_ok propagated
  have opens : Tightened (fun _ => False) (fun _ => False) k₀ k₁ :=
    (tightens_linkWith ..).of_ok opened
  have uses₀ : k₀.Uses (Literal.Within V) :=
    (repeats_propagate _ (Support.only_ofLiteral within)).of_ok propagated uses
  have uses₁ : k₁.Uses (Literal.Within V) := (repeats_linkWith _ _ within).of_ok opened uses₀
  have holds : (Literal.is subject value).Holds v := taken
  obtain ⟨g, found'⟩ := (sameEpisodes_propagate propagated).symm.episode found
  refine ⟨_, found', ?_⟩
  dsimp only
  rcases rest with ⟨terminal, rfl, rfl⟩ | ⟨terminal, closing, closed, rfl⟩
  · refine ⟨fun starts => ⟨opening, List.mem_singleton_self _, ?_⟩, fun goes => ?_⟩
    · exact ⟨binds_linkWith opened uses₀.speaks holds later choices starts,
        new_of_linkWith opened ∘ before.has⟩
    · rw [terminal] at goes
      cases goes
  · have leaves : Tightened (fun _ => False) (fun _ => False) k₁ m :=
      (tightens_linkWith ..).of_ok closed
    have closes : Tightened (fun _ => True) (fun _ => False) k₁ k :=
      leaves.widen.trans later
    refine ⟨fun starts => ⟨opening, List.mem_cons_self, ?_⟩, fun _ ends reached =>
      ⟨closing, List.mem_cons_of_mem _ (List.mem_singleton_self _), ?_⟩⟩
    · exact ⟨(binds_linkWith opened uses₀.speaks holds closes choices starts).tightened leaves
        not_false not_false, new_of_linkWith opened ∘ before.has⟩
    · exact ⟨binds_linkWith closed uses₁.speaks holds later ends reached,
        new_of_linkWith closed ∘ opens.has ∘ before.has⟩

/-- Each link of the branch that is taken applies if the events that it joins occur
after the branches or later. The other branches narrow only what was there before. -/
theorem binds_addBranches {entries : List (String × EpisodeId)} {branches : List Branch}
    {episode : EpisodeId} (done : addBranches choice finish subject entries n = .ok branches m)
    (uses : n.Uses (Literal.Within V))
    (within : ∀ entry ∈ entries, (Literal.is subject entry.1).Within V)
    (there : ∀ entry ∈ entries, ∀ element ∈ n.parts entry.2, n.Has element)
    (taken : (v.value subject.key, episode) ∈ entries)
    (later : Tightened (fun _ => True) (fun _ => False) m k) (choices : k.Occurs v (.event choice)) :
    ∃ e, n.episode episode = .ok e ∧ (k.Occurs v (.event e.start) →
        ∃ link ∈ branches.flatMap (·.links), m.Binds v .infinity choice e.start link) ∧
      (e.terminal = false → k.Occurs v (.event e.finish) → k.Occurs v (.event finish) →
        ∃ link ∈ branches.flatMap (·.links), m.Binds v .infinity e.finish finish link) := by
  induction entries generalizing n branches with
  | nil => exact absurd taken List.not_mem_nil
  | cons entry rest ih =>
    obtain ⟨branch, k₀, others, added, remaining, rfl⟩ := addBranches_cons_eq_ok done
    obtain ⟨within, within'⟩ := List.forall_mem_cons.mp within
    obtain ⟨there, there'⟩ := List.forall_mem_cons.mp there
    have episodes := sameEpisodes_addBranch added
    have step : Tightened (fun _ => True) (fun _ => False) n k₀ :=
      (tightens_addBranch fun _ _ => .inl trivial).of_ok added
    have steps : Tightened (fun element => ∃ entry ∈ rest, element ∈ n.parts entry.2)
        (fun _ => False) k₀ m := by
      refine (tightens_addBranches fun entry member element part => .inl ⟨entry, member, ?_⟩).of_ok
        remaining
      rwa [episodes.parts] at part
    rcases List.mem_cons.mp taken with rfl | taken
    · obtain ⟨e, found, opening, closing⟩ := binds_addBranch added uses within rfl
        ((steps.mono (fun _ _ _ => .inl trivial) fun _ _ => False.elim).trans later) choices
      have outside {link : TemporalId} (new : ¬ n.Has (.temporal link)) :
          ¬ ∃ entry ∈ rest, Guarded.temporal link ∈ n.parts entry.2 :=
        fun ⟨entry, member, part⟩ => new (there' entry member _ part)
      refine ⟨e, found, fun starts => ?_, fun goes ends reached => ?_⟩
      · obtain ⟨link, member, binds, new⟩ := opening starts
        exact ⟨link, List.mem_append_left _ member, binds.tightened steps (outside new) not_false⟩
      · obtain ⟨link, member, binds, new⟩ := closing goes ends reached
        exact ⟨link, List.mem_append_left _ member, binds.tightened steps (outside new) not_false⟩
    · obtain ⟨e, found, opening, closing⟩ := ih remaining
        ((repeats_addBranch _ _ within _).of_ok added uses) within'
        (fun entry member element part => by
          rw [episodes.parts] at part
          exact step.has (there' entry member element part)) taken
      obtain ⟨g, found'⟩ := episodes.symm.episode found
      refine ⟨_, found', fun starts => ?_, fun goes ends reached => ?_⟩
      · obtain ⟨link, member, binds⟩ := opening starts
        exact ⟨link, List.mem_append_right _ member, binds⟩
      · obtain ⟨link, member, binds⟩ := closing goes ends reached
        exact ⟨link, List.mem_append_right _ member, binds⟩

end Edit

end PlanNetwork
