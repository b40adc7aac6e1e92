/-
# What a choice selects

A branching narrows each episode to the value of the choice that selects it, and links it
to the choice and, unless the episode ends the execution, to the common end. Both are there
whatever is selected while this goes on, so the links are left to the guards of the
episode, which demand the value by then; that the links demand it once more takes nothing
away. The common end gets its guard last, when there are links to it already. This guard
rules out the values of the episodes that end the execution, and since a choice has one of
its values, it is met where the choice has the value of one of the others.

The episodes are to have nothing in common, and what belongs to them must not speak of the
choice yet. Then every guard that has a valuation has one with the value that is asked for,
for the choice can be given any of its values. So nothing can be refused.
-/

import PlanNetwork.Proofs.Composition.Assembled
import PlanNetwork.Proofs.Composition.Joining
import PlanNetwork.Proofs.Composition.Binding

namespace PlanNetwork

open Network

variable {V : Vocabulary} {n m k : Network} {choice start finish : EventId} {id : EpisodeId}
  {ids : List EpisodeId} {e : Episode} {subject : ChoiceVariable} {value : String}
  {entries rest : List (String × EpisodeId)} {ends : List EventId} {links : List TemporalId}
  {options : CompositionOptions} {bounds : Bounds} {s : Support} {literal : Literal}
  {x : Guarded} {narrowed replaced : Guarded → Prop}

namespace Network

/-- The constraint leads from the one event to the other and applies where the last one
exists. -/
def LinksAt (V : Vocabulary) (n : Network) (c : TemporalId) (start finish event : EventId) : Prop :=
  n.Spans c start finish ∧ ∀ v : Valuation V, n.Occurs v (.temporal c) ↔ n.Occurs v (.event event)

/-- The links of a branch are one from the choice to the start of the episode, which applies
where this start exists, and, unless the episode ends the execution, one from its end to the
common end, which applies where the end of the episode exists. -/
def Routed (V : Vocabulary) (n : Network) (choice finish : EventId) (id : EpisodeId)
    (links : List TemporalId) : Prop :=
  ∃ f opening, n.episode id = .ok f ∧ n.LinksAt V opening choice f.start f.start ∧
    (f.terminal = true ∧ links = [opening] ∨
      f.terminal = false ∧ ∃ closing, links = [opening, closing] ∧
        n.LinksAt V closing f.finish finish f.finish)

theorem LinksAt.later {c : TemporalId} {event : EventId} (h : k.LinksAt V c start finish event)
    (step : Tightened narrowed replaced k m) (there : k.Has (.event event))
    (link : ¬ narrowed (.temporal c) ∧ ¬ replaced (.temporal c))
    (apart : ¬ narrowed (.event event) ∧ ¬ replaced (.event event)) :
    m.LinksAt V c start finish event := by
  obtain ⟨spans, applies⟩ := h
  refine ⟨spans.grows step.toGrows, fun v => ?_⟩
  obtain ⟨constraint, found, _⟩ := spans
  have linked : k.Has (.temporal c) :=
    ⟨constraint.guard, map_eq_ok_iff.mpr ⟨constraint, found, rfl⟩⟩
  rw [step.occurs_iff link.1 link.2 linked, step.occurs_iff apart.1 apart.2 there, applies]

/-- It does not matter to a branch what happens elsewhere. -/
theorem Routed.later (h : k.Routed V choice finish id links)
    (step : Tightened narrowed replaced k m)
    (apart : ∀ c ∈ links, ¬ narrowed (.temporal c) ∧ ¬ replaced (.temporal c))
    (outside : ∀ x ∈ k.parts id, k.Has x ∧ ¬ narrowed x ∧ ¬ replaced x) :
    m.Routed V choice finish id links := by
  obtain ⟨f, opening, found, opens, rest⟩ := h
  obtain ⟨g, found'⟩ := step.episode found
  obtain ⟨first, untouched⟩ := outside _ (mem_parts_start found)
  obtain ⟨last, untouched'⟩ := outside _ (mem_parts_finish found)
  have within : opening ∈ links := by
    rcases rest with ⟨_, rfl⟩ | ⟨_, closing, rfl, _⟩ <;> exact List.mem_cons_self
  refine ⟨_, opening, found', opens.later step first (apart opening within) untouched, ?_⟩
  rcases rest with ends | ⟨goes, closing, rfl, closes⟩
  · exact .inl ends
  · have within : closing ∈ [opening, closing] := by simp
    exact .inr ⟨goes, closing, rfl, closes.later step last (apart closing within) untouched'⟩

/-- The episodes can be made the branches of a choice: some events exist whatever is
selected and belong to none of them, and each episode can be narrowed to its value without
touching the others. -/
structure Branchable (V : Vocabulary) (n : Network) (ends : List EventId)
    (subject : ChoiceVariable) (entries : List (String × EpisodeId)) : Prop where
  /-- The guards and choices are within the vocabulary. -/
  uses : n.Uses (Literal.Within V)
  /-- Every guard has a valuation. -/
  viable : n.Viable
  /-- The events always exist. -/
  always : ∀ event ∈ ends, ∀ v : Valuation V, n.Occurs v (.event event)
  /-- They belong to none of the episodes. -/
  outside : ∀ event ∈ ends, ∀ entry ∈ entries, .event event ∉ n.parts entry.2
  /-- The values are those of the choice. -/
  within : ∀ entry ∈ entries, (Literal.is subject entry.1).Within V
  /-- The episodes are there. -/
  there : ∀ entry ∈ entries, ∃ e, n.episode entry.2 = .ok e
  /-- What belongs to an episode exists somewhere where its value is selected. -/
  compatible : ∀ entry ∈ entries, ∀ x ∈ n.parts entry.2,
    n.Compatible V (.ofLiteral (.is subject entry.1)) x
  /-- They have nothing in common. -/
  apart : entries.Pairwise fun a b => ∀ x ∈ n.parts a.2, x ∉ n.parts b.2

namespace Branchable

theorem has (h : n.Branchable V ends subject entries) :
    ∀ entry ∈ entries, ∀ x ∈ n.parts entry.2, n.Has x := by
  intro entry member x part
  obtain ⟨v, occurs, _⟩ := h.compatible entry member x part
  exact occurs.has

theorem tail {entry : String × EpisodeId} (h : n.Branchable V ends subject (entry :: rest)) :
    n.Branchable V ends subject rest where
  uses := h.uses
  viable := h.viable
  always := h.always
  outside event member entry inside := h.outside event member entry (List.mem_cons_of_mem _ inside)
  within entry inside := h.within entry (List.mem_cons_of_mem _ inside)
  there entry inside := h.there entry (List.mem_cons_of_mem _ inside)
  compatible entry inside := h.compatible entry (List.mem_cons_of_mem _ inside)
  apart := (List.pairwise_cons.mp h.apart).2

/-- This stays so as long as neither the events nor the episodes are touched. -/
theorem later (h : n.Branchable V ends subject entries)
    (step : Tightened narrowed (fun _ => False) n m) (same : SameEpisodes n m)
    (uses : m.Uses (Literal.Within V)) (viable : m.Viable)
    (events : ∀ event ∈ ends, ¬ narrowed (.event event))
    (parts : ∀ entry ∈ entries, ∀ x ∈ n.parts entry.2, ¬ narrowed x) :
    m.Branchable V ends subject entries where
  uses := uses
  viable := viable
  always event member v := step.occurs (events event member) not_false (h.always event member v)
  outside event member entry inside := by
    rw [same.parts]
    exact h.outside event member entry inside
  within := h.within
  there entry inside := by
    obtain ⟨e, found⟩ := h.there entry inside
    obtain ⟨g, found'⟩ := same.episode found
    exact ⟨_, found'⟩
  compatible entry inside x part := by
    rw [same.parts] at part
    obtain ⟨v, occurs, holds⟩ := h.compatible entry inside x part
    exact ⟨v, step.occurs (parts entry inside x part) not_false occurs, holds⟩
  apart := by
    simp only [same.parts]
    exact h.apart

end Branchable

end Network

namespace Edit

/-! ## Steps that succeed -/

/-- An episode can be narrowed as a whole if something is left of each of its parts. -/
theorem yields_propagate_of_compatible (found : n.episode id = .ok e) (speaks : n.Speaks V)
    (within : s.Within V) (compatible : ∀ x ∈ n.parts id, n.Compatible V s x) :
    (propagate id s).Yields n fun _ _ => True := by
  rw [Attempt.Yields, propagate_eq found]
  refine yields_atomically (fun k same => ?_) fun _ _ _ => trivial
  cases narrows : Attempt.each (narrow · s) (n.parts id) k with
  | ok u m => exact ⟨u, m, narrows, trivial⟩
  | error fault m =>
    have still : ∀ x ∈ n.parts id, k.Compatible V s x := fun x part =>
      (compatible x part).imp fun v => And.imp_left same.occurs_iff.mpr
    have there : ∀ x ∈ n.parts id, k.Has x := fun x part => (still x part).elim fun _ h => h.1.has
    obtain ⟨_, _, x, part, nothing⟩ :=
      of_each_narrow_eq_error there narrows (speaks.of_same same) within
    exact absurd (still x part) nothing

theorem support_of_addLiteral {u : Unit} (done : addLiteral x literal n = .ok u m)
    (found : n.support x = .ok s) : m.support x = .ok (s.withLiteral literal) := by
  obtain ⟨old, _, there, changed, rfl⟩ := changeGuard_eq_ok_iff.mp done
  obtain rfl := Except.ok.inj changed
  obtain rfl := Except.ok.inj (there.symm.trans (support_eq_ok_iff.mp found))
  exact support_eq_ok_iff.mpr (guard_setGuard_self (guard_note.trans there))

/-- A link under a literal applies where one of its events exists, if the other one exists
there as well and the literal is true there. -/
theorem yields_linkWith_at {event : EventId} (speaks : n.Speaks V)
    (some : ∃ v : Valuation V, n.Occurs v (.event event))
    (both : ∀ v : Valuation V,
      n.Occurs v (.event start) ∧ n.Occurs v (.event finish) ↔ n.Occurs v (.event event))
    (demands : ∀ v : Valuation V, n.Occurs v (.event event) → literal.Holds v) :
    (linkWith start finish literal).Yields n fun c m => m.LinksAt V c start finish event := by
  have together : n.Together V start finish := some.imp fun v => (both v).mpr
  obtain ⟨c, k, linked, _, occurs⟩ :=
    yields_link_of_together together speaks (.precedence .infinity)
  obtain ⟨v, exists_⟩ := together
  obtain ⟨s, found, _⟩ := (occurs v).mpr exists_
  have written : addLiteral (.temporal c) literal k = .ok () _ :=
    changeGuard_eq_ok_iff.mpr ⟨_, _, support_eq_ok_iff.mp found, rfl, rfl⟩
  have done : linkWith start finish literal n = .ok c _ :=
    Attempt.bind_eq_ok_iff.mpr ⟨c, k, linked, Attempt.bind_eq_ok_iff.mpr ⟨(), _, written, rfl⟩⟩
  have step : Tightened (fun _ => False) (fun _ => False) n _ := (tightens_linkWith ..).of_ok done
  refine ⟨c, _, done, spans_of_linkWith done, fun v => ?_⟩
  have there : n.Has (.event event) := some.elim fun _ => Occurs.has
  rw [occurs_iff_of_support (support_of_addLiteral written found), Support.holds_withLiteral,
    ← occurs_iff_of_support found, occurs, both, step.occurs_iff not_false not_false there]
  exact and_iff_left_of_imp (demands v)

/-! ## One branch -/

section Branch

variable (h : n.Branchable V [choice, finish] subject ((value, id) :: rest))

include h

/-- The episode of a branch that is next can be narrowed to the value of the branch. The
events around the branches still exist always, and those of the episode somewhere, but only
where it is selected. -/
theorem yields_propagate_of_branchable (found : n.episode id = .ok e) :
    (propagate id (.ofLiteral (.is subject value))).Yields n fun _ k =>
      k.Uses (Literal.Within V) ∧
      (∀ event ∈ [choice, finish], ∀ v : Valuation V, k.Occurs v (.event event)) ∧
      ∀ event, .event event ∈ n.parts id → (∃ v : Valuation V, k.Occurs v (.event event)) ∧
        ∀ v : Valuation V, k.Occurs v (.event event) → (Literal.is subject value).Holds v := by
  have only : (Support.ofLiteral (.is subject value)).Within V :=
    Support.only_ofLiteral (h.within _ List.mem_cons_self)
  have compatible := h.compatible _ List.mem_cons_self
  obtain ⟨u, k, propagated, _⟩ :=
    yields_propagate_of_compatible found h.uses.speaks only compatible
  have narrows {x : Guarded} {v : Valuation V} : k.Occurs v x ↔
      n.Occurs v x ∧ (x ∈ n.parts id → (Literal.is subject value).Holds v) := by
    rw [occurs_propagate_iff propagated h.uses.speaks only, Support.holds_ofLiteral]
  refine ⟨u, k, propagated, (repeats_propagate id only).of_ok propagated h.uses,
    fun event member v => ?_, fun event part => ?_⟩
  · exact narrows.mpr ⟨h.always event member v,
      fun part => absurd part (h.outside event member _ List.mem_cons_self)⟩
  · obtain ⟨v, occurs, holds⟩ := compatible _ part
    exact ⟨⟨v, narrows.mpr ⟨occurs, fun _ => Support.holds_ofLiteral.mp holds⟩⟩,
      fun v occurs => (narrows.mp occurs).2 part⟩

/-- A branch that is next can be added. Its links are new. -/
theorem yields_addBranch_of_branchable :
    (addBranch choice finish subject value id).Yields n fun branch m =>
      m.Routed V choice finish id branch.links ∧
        ∀ c ∈ branch.links, ¬ n.Has (.temporal c) := by
  obtain ⟨e₀, found⟩ := h.there _ List.mem_cons_self
  have within := h.within _ List.mem_cons_self
  obtain ⟨_, k, propagated, uses, always, inside⟩ := yields_propagate_of_branchable h found
  obtain ⟨g, found'⟩ := (sameEpisodes_propagate propagated).episode found
  have before : Tightened (· ∈ n.parts id) (fun _ => False) n k :=
    (tightens_propagate fun _ => .inl).of_ok propagated
  obtain ⟨starts, demands⟩ := inside _ (mem_parts_start found)
  obtain ⟨finishes, demands'⟩ := inside _ (mem_parts_finish found)
  refine Attempt.yields_bind propagated (Attempt.yields_read found' ?_)
  obtain ⟨opening, k₁, opened, opens⟩ := yields_linkWith_at uses.speaks starts
    (fun v => and_iff_right (always choice (by simp) v)) demands
  have step : Tightened (fun _ => False) (fun _ => False) k k₁ :=
    (tightens_linkWith ..).of_ok opened
  have new : ¬ n.Has (.temporal opening) := new_of_linkWith opened ∘ before.has
  obtain ⟨g₁, found₁⟩ := step.episode found'
  refine Attempt.yields_bind opened ?_
  by_cases terminal : e₀.terminal = true
  · rw [if_pos terminal]
    refine Attempt.yields_pure ⟨⟨_, opening, found₁, opens, .inl ⟨terminal, rfl⟩⟩, ?_⟩
    exact List.forall_mem_singleton.mpr new
  · rw [if_neg terminal]
    have uses₁ : k₁.Uses (Literal.Within V) := (repeats_linkWith _ _ within).of_ok opened uses
    have same (v : Valuation V) :
        k₁.Occurs v (.event e₀.finish) ↔ k.Occurs v (.event e₀.finish) :=
      step.occurs_iff not_false not_false (finishes.elim fun _ => Occurs.has)
    obtain ⟨closing, m, closed, closes⟩ := yields_linkWith_at uses₁.speaks
      (finishes.imp fun v => (same v).mpr)
      (fun v => and_iff_left (step.occurs not_false not_false (always finish (by simp) v)))
      fun v occurs => demands' v ((same v).mp occurs)
    have later : Tightened (fun _ => False) (fun _ => False) k₁ m :=
      (tightens_linkWith ..).of_ok closed
    have new' : ¬ n.Has (.temporal closing) := new_of_linkWith closed ∘ step.has ∘ before.has
    obtain ⟨g₂, found₂⟩ := later.episode found₁
    have opens' := opens.later later (step.has (starts.elim fun _ => Occurs.has))
      ⟨not_false, not_false⟩ ⟨not_false, not_false⟩
    refine Attempt.yields_bind closed (Attempt.yields_pure ⟨⟨_, opening, found₂, opens',
      .inr ⟨by simpa using terminal, closing, rfl, closes⟩⟩, ?_⟩)
    exact List.forall_mem_cons.mpr ⟨new, List.forall_mem_singleton.mpr new'⟩

theorem branchable_addBranch {branch : Branch}
    (done : addBranch choice finish subject value id n = .ok branch m) :
    m.Branchable V [choice, finish] subject rest := by
  have step : Tightened (· ∈ n.parts id) (fun _ => False) n m :=
    (tightens_addBranch fun _ => .inl).of_ok done
  refine h.tail.later step (sameEpisodes_addBranch done)
    ((repeats_addBranch _ _ (h.within _ List.mem_cons_self) id).of_ok done h.uses)
    (h.viable.evolution ((follows_addBranch ..).of_ok done).evolution)
    (fun event member part => h.outside event member _ List.mem_cons_self part) ?_
  exact fun entry member x part inside =>
    (List.pairwise_cons.mp h.apart).1 entry member x inside part

end Branch

/-! ## All branches -/

/-- If there are no branches left, then the events still exist always. -/
theorem yields_addBranches_of_branchable (h : n.Branchable V [choice, finish] subject entries) :
    (addBranches choice finish subject entries).Yields n fun branches m =>
      m.Branchable V [choice, finish] subject [] ∧ List.Forall₂
        (fun entry branch => m.Routed V choice finish entry.2 branch.links) entries branches := by
  induction entries generalizing n with
  | nil => exact Attempt.yields_pure ⟨h, .nil⟩
  | cons entry rest ih =>
    obtain ⟨branch, k, added, routed, new⟩ := yields_addBranch_of_branchable h
    have same := sameEpisodes_addBranch added
    have step : Tightened (· ∈ n.parts entry.2) (fun _ => False) n k :=
      (tightens_addBranch fun _ => .inl).of_ok added
    obtain ⟨others, m, remaining, after, routed'⟩ := ih (branchable_addBranch h added)
    have steps : Tightened (fun x => ∃ other ∈ rest, x ∈ n.parts other.2) (fun _ => False) k m := by
      refine (tightens_addBranches fun other member x part => ?_).of_ok remaining
      rw [same.parts] at part
      exact .inl ⟨other, member, part⟩
    refine Attempt.yields_bind added (Attempt.yields_bind remaining (Attempt.yields_pure
      ⟨after, .cons (routed.later steps (fun c member => ?_) fun x part => ?_) routed'⟩))
    · -- the links are new, so they belong to none of the episodes
      refine ⟨fun ⟨other, inside, part⟩ => new c member ?_, not_false⟩
      exact h.tail.has other inside _ part
    · rw [same.parts] at part
      refine ⟨step.has (h.has _ List.mem_cons_self x part), fun ⟨other, inside, part'⟩ => ?_,
        not_false⟩
      exact (List.pairwise_cons.mp h.apart).1 other inside x part part'

/-! ## The composition -/

section Whole

variable {data : Choice} (h : n.Branchable V [choice] data.subject (data.subject.domain.zip ids))
  (chosen : n.choice choice = .ok data) (unanchored : options.Unanchored)

include h chosen unanchored

/-- An event that has just been made belongs to none of the episodes. -/
theorem branchable_of_eventOrNew {n' : Network} (begins : Same n n')
    (first : eventOrNew options.finish n' = .ok finish k) : choice ≠ finish ∧
      k.Branchable V [choice, finish] data.subject (data.subject.domain.zip ids) := by
  have step : Tightened (fun _ => False) (fun _ => False) n k :=
    .trans (.of_same begins) ((tightens_eventOrNew _).of_ok first)
  have same : SameEpisodes n k :=
    (SameEpisodes.of_bare begins.bare).trans (sameEpisodes_eventOrNew first)
  have viable : k.Viable :=
    (h.viable.of_same begins).evolution ((follows_eventOrNew _).of_ok first).evolution
  have ready := h.later step same ((repeats_eventOrNew _).of_ok first (h.uses.of_same begins))
    viable (fun _ _ => not_false) fun _ _ _ _ => not_false
  rw [unanchored.finish] at first
  obtain ⟨_, new, exists_, _⟩ := yields_addEvent.of_eq_ok first
  have new : ¬ n.Has (.event finish) := new ∘ begins.adds.has
  refine ⟨fun same => new (same ▸ has_of_choice chosen), { ready with always := ?_, outside := ?_ }⟩
  · refine List.forall_mem_cons.mpr ⟨ready.always choice List.mem_cons_self,
      List.forall_mem_singleton.mpr fun v => ?_⟩
    exact (occurs_iff_of_support exists_).mpr (Support.holds_always v)
  · refine List.forall_mem_cons.mpr ⟨ready.outside choice List.mem_cons_self,
      List.forall_mem_singleton.mpr fun entry member part => ?_⟩
    rw [same.parts] at part
    exact new (h.has entry member _ part)

/-- Nothing is refused. -/
theorem yields_branch_of_branchable (suits : V.Suits n) (covered : data.subject.arity = ids.length)
    (resolved : (options.duration.getD .unconstrained).resolve = .ok bounds) :
    (branch choice ids options).Yields n fun _ _ => True := by
  refine Attempt.yields_read chosen ?_
  rw [if_neg (not_not.mpr covered)]
  refine yields_atomically (fun n' begins => ?_) fun _ _ _ => trivial
  obtain ⟨finish, k₁, first, there⟩ :
      (eventOrNew options.finish).Yields n' fun finish k => k.Has (.event finish) := by
    rw [unanchored.finish]
    exact yields_addEvent.mono fun _ _ ⟨_, _, exists_, _⟩ => has_of_support exists_
  obtain ⟨differ, ready⟩ := branchable_of_eventOrNew h chosen unanchored begins first
  obtain ⟨branches, k₂, added, after, _⟩ := yields_addBranches_of_branchable ready
  have branching : Tightened (fun _ => True) (fun _ => False) k₁ k₂ :=
    (tightens_addBranches fun _ _ _ _ => .inl trivial).of_ok added
  have starts := after.always choice (by simp)
  have finishes := branching.has there
  -- both events exist together, since one of them always exists and the other somewhere
  have composite {k₃ : Network} (uses : k₃.Uses (Literal.Within V)) (viable : k₃.Viable)
      (starts : ∀ v : Valuation V, k₃.Occurs v (.event choice)) (there : k₃.Has (.event finish)) :
      (addComposite options choice finish (.branching choice ids) (branches.flatMap (·.links))
        ((branches.filter (·.terminal)).length == data.subject.arity)).Yields k₃
        fun _ _ => True := by
    obtain ⟨v, occurs⟩ := viable.exists_occurs uses.speaks there
    exact yields_addComposite_of_together resolved ⟨v, starts v, occurs⟩ uses ..
  refine Attempt.yields_bind first (Attempt.yields_bind added ?_)
  dsimp only
  split
  next some =>
    obtain ⟨g, there⟩ := finishes
    have written : setConjunction (.event finish)
        (.ofList ((branches.filter (·.terminal)).map (.isNot data.subject ·.value))) k₂ = .ok () _ :=
      changeGuard_eq_ok_iff.mpr ⟨g, _, there, rfl, rfl⟩
    have excludes : Tightened (fun _ => False) (.event finish = ·) k₂ _ :=
      (tightens_setConjunction rfl).of_ok written
    have fewer : (branches.filter (·.terminal)).length < data.subject.arity := by
      have size := List.length_filter_le (·.terminal) branches
      rw [length_addBranches added, List.length_zip] at size
      simp only [Bool.and_eq_true, Bool.not_eq_true', beq_eq_false_iff_ne] at some
      unfold ChoiceVariable.arity at some ⊢
      omega
    refine Attempt.yields_bind written (composite ?_ ?_ ?_ (excludes.has ⟨g, there⟩))
    · refine (repeats_setConjunction _ fun a member => ?_).of_ok written after.uses
      obtain ⟨branch, _, rfl⟩ := List.mem_map.mp (OrdSet.mem_of_mem_ofList member)
      exact ⟨(suits chosen).symm, nofun⟩
    · exact after.viable.evolution ((follows_excludeEnded fewer).of_ok written).evolution
    · have apart : ¬ Guarded.event finish = .event choice :=
        fun same => differ (Guarded.event.inj same).symm
      exact fun v => excludes.occurs not_false apart (starts v)
  next => exact composite after.uses after.viable starts finishes

/-- What has become of the branches when the composition is there. -/
theorem routed_of_branch (done : branch choice ids options n = .ok id m) : ∃ e,
    m.episode id = .ok e ∧ ∃ branches : List (List TemporalId),
      e.constraints = .ofList branches.flatten ∧
      List.Forall₂ (m.Routed V choice e.finish) ids branches := by
  obtain ⟨data', chosen', covered, n', m', begins, last, finish, k₁, branches, k₂, k₃, first, added,
    writes, made⟩ := branch_eq_ok done
  obtain rfl := Except.ok.inj (chosen.symm.trans chosen')
  obtain ⟨_, ready⟩ := branchable_of_eventOrNew h chosen unanchored begins first
  obtain ⟨_, routed⟩ := (yields_addBranches_of_branchable ready).of_eq_ok added
  obtain ⟨e, found, _, rfl, _, constraints, _⟩ := episode_addComposite made
  have branching : Tightened (fun _ => True) (fun _ => False) k₁ k₂ :=
    (tightens_addBranches fun _ _ _ _ => .inl trivial).of_ok added
  have steps : Tightened (fun _ => False) (.event e.finish = ·) k₂ m :=
    (tightened_excludeEnded writes).trans (.trans ((tightens_addComposite ..).of_ok made) (.of_same last))
  have paired : (data.subject.domain.zip ids).map (·.2) = ids :=
    List.map_snd_zip (Nat.le_of_eq covered.symm)
  refine ⟨e, last.episode found, branches.map (·.links), by rw [constraints, List.flatMap_def], ?_⟩
  rw [← paired, List.forall₂_map_left_iff, List.forall₂_map_right_iff]
  refine ((List.forall₂_and_left _ _).mpr ⟨fun _ member => member, routed⟩).imp
    fun entry branch ⟨member, routed⟩ => routed.later steps (fun _ _ => ⟨not_false, nofun⟩) ?_
  intro x part
  rw [(sameEpisodes_addBranches added).parts] at part
  refine ⟨branching.has (ready.has entry member x part), not_false, ?_⟩
  rintro rfl
  exact ready.outside e.finish (by simp) entry member part

end Whole

end Edit

/-! ## What is selected -/

namespace Network

/-- A choice can select from the episodes: they are there, have nothing in common, and
nothing to do with the choice so far. -/
structure Separate (n : Network) (choice : EventId) (subject : ChoiceVariable)
    (ids : List EpisodeId) : Prop where
  /-- The episodes are there. -/
  there : ∀ id ∈ ids, ∃ e, n.episode id = .ok e
  /-- Nothing belongs to two of them: no event, no episode and no temporal constraint. -/
  disjoint : ids.Pairwise fun a b => ∀ x, n.Comprises a x → ¬ n.Comprises b x
  /-- The event of the choice belongs to none of them. -/
  apart : ∀ id ∈ ids, ¬ n.Comprises id (.event choice)
  /-- No guard of what belongs to them speaks of the choice. -/
  silent : ∀ id ∈ ids, ∀ x s, n.Comprises id x → n.support x = .ok s →
    s.Only (·.choice.key ≠ subject.key)

/-- What has become of a branching. Its episodes, its links and its end exist by the value
of the choice. -/
structure Governed (V : Vocabulary) (n m : Network) (choice : EventId) (subject : ChoiceVariable)
    (ids : List EpisodeId) (e : Episode) : Prop where
  /-- What belongs to an episode exists where it did and the choice has its value. -/
  inside : ∀ entry ∈ subject.domain.zip ids, ∀ x, n.Comprises entry.2 x →
    ∀ v : Valuation V, m.Occurs v x ↔ n.Occurs v x ∧ v.value subject.key = entry.1
  /-- Each episode has its links, and these are the internal constraints. -/
  links : ∃ branches : List (List TemporalId), e.constraints = .ofList branches.flatten ∧
    List.Forall₂ (m.Routed V choice e.finish) ids branches
  /-- Unless the whole ends the execution, its end exists where an episode is selected that
  does not. -/
  finish : e.terminal = false → ∀ v : Valuation V, m.Occurs v (.event e.finish) ↔
    ∃ id, n.Picks v choice ids id ∧ n.Flagged id false

section Separate

variable {data : Choice} (whole : n.WellFormed)

include whole

/-- What belongs to an episode is what propagation reaches. -/
theorem comprises_iff_of_mem (there : ∀ id ∈ ids, ∃ e, n.episode id = .ok e) (member : id ∈ ids) :
    n.Comprises id x ↔ x ∈ n.parts id := by
  obtain ⟨e, found⟩ := there id member
  exact whole.comprises_iff found

/-- It is enough to look at what propagation reaches. -/
theorem separate_of_parts (there : ∀ id ∈ ids, ∃ e, n.episode id = .ok e)
    (disjoint : ids.Pairwise fun a b => ∀ x ∈ n.parts a, x ∉ n.parts b)
    (apart : ∀ id ∈ ids, .event choice ∉ n.parts id)
    (silent : ∀ id ∈ ids, ∀ x ∈ n.parts id, ∀ s ∈ (n.support x).toOption,
      s.Only (·.choice.key ≠ subject.key)) : n.Separate choice subject ids := by
  refine ⟨there, disjoint.imp_of_mem fun first second disjoint x => ?_, fun id member => ?_,
    fun id member x s inside found => ?_⟩
  · rw [comprises_iff_of_mem whole there first, comprises_iff_of_mem whole there second]
    exact disjoint x
  · rw [comprises_iff_of_mem whole there member]
    exact apart id member
  · have part := (comprises_iff_of_mem whole there member).mp inside
    exact silent id member x part s (toOption_eq_some_iff.mpr found)

variable (separate : n.Separate choice data.subject ids)

include separate

/-- What belongs to one episode does not belong to another. -/
theorem Separate.pairwise_zip (covered : data.subject.arity = ids.length) :
    (data.subject.domain.zip ids).Pairwise fun a b => ∀ x ∈ n.parts a.2, x ∉ n.parts b.2 := by
  have paired : (data.subject.domain.zip ids).map (·.2) = ids :=
    List.map_snd_zip (Nat.le_of_eq covered.symm)
  have disjoint := separate.disjoint
  rw [← paired, List.pairwise_map] at disjoint
  refine disjoint.imp_of_mem fun {a b} first second disjoint x part part' => ?_
  rw [← comprises_iff_of_mem whole separate.there (List.of_mem_zip first).2] at part
  rw [← comprises_iff_of_mem whole separate.there (List.of_mem_zip second).2] at part'
  exact disjoint x part part'

/-- The choice can have any of its values wherever something exists that does not speak of
it. -/
theorem Separate.branchable (chosen : n.choice choice = .ok data)
    (covered : data.subject.arity = ids.length) (suits : V.Suits n)
    (uses : n.Uses (Literal.Within V)) (viable : n.Viable)
    (always : ∀ v : Valuation V, n.Occurs v (.event choice)) :
    n.Branchable V [choice] data.subject (data.subject.domain.zip ids) where
  uses := uses
  viable := viable
  always := List.forall_mem_singleton.mpr always
  outside := List.forall_mem_singleton.mpr fun entry member part =>
    have inside := (List.of_mem_zip (a := entry.1) member).2
    separate.apart _ inside ((comprises_iff_of_mem whole separate.there inside).mpr part)
  within _ := uses.is_of_mem_zip chosen
  there entry member := separate.there _ (List.of_mem_zip (a := entry.1) member).2
  compatible entry member x part := by
    obtain ⟨value, id⟩ := entry
    obtain ⟨listed, inside⟩ := List.of_mem_zip member
    obtain ⟨e, found⟩ := separate.there id inside
    obtain ⟨v, s, support, holds⟩ :=
      viable.exists_occurs uses.speaks (whole.has_of_mem_parts part)
    have silent := separate.silent id inside x s ((whole.comprises_iff found).mpr part) support
    have mem : value ∈ V.domain data.subject.key := suits chosen ▸ listed
    refine ⟨v.set data.subject.key value mem, ⟨s, support, silent.holds_set_iff.mpr holds⟩, ?_⟩
    exact Support.holds_ofLiteral.mpr Valuation.value_set_self
  apart := separate.pairwise_zip whole covered

end Separate

end Network

namespace Edit

/-- Each episode comes with two links, or with one if it ends the execution. -/
theorem length_flatMap_toward {children : List Episode}
    (found : List.Forall₂ (fun id f => n.episode id = .ok f) ids children) :
    (children.flatMap (Arc.toward choice finish)).length + (ids.filter n.isTerminal).length =
      2 * ids.length := by
  induction found with
  | nil => rfl
  | @cons id f rest others here _ ih =>
    rw [List.flatMap_cons, List.length_append, List.filter_cons, isTerminal_eq here, Arc.toward]
    cases f.terminal
    all_goals
      simp only [Bool.false_eq_true, if_true, if_false, List.length_cons, List.length_nil]
      omega

theorem terminal_branch_iff (done : branch choice ids options n = .ok id m)
    (found : m.episode id = .ok e) : e.terminal = true ↔ ∀ id ∈ ids, n.Flagged id true := by
  obtain ⟨data, _, covered, n', m', begins, last, finish, k₁, branches, k₂, k₃, first, added, _,
    made⟩ := branch_eq_ok done
  obtain ⟨e', found', _, _, _, _, terminal⟩ := episode_addComposite made
  obtain rfl := Except.ok.inj ((last.episode found').symm.trans found)
  have episodes : SameEpisodes n k₁ :=
    (SameEpisodes.of_bare begins.bare).trans (sameEpisodes_eventOrNew first)
  have flags := flags_of_sameEpisodes episodes added
  rw [terminal, forall_flagged_iff covered flags]

section Selection

variable {data : Choice} (whole : n.WellFormed) (chosen : n.choice choice = .ok data)
  (unanchored : options.Unanchored)
  (h : n.Branchable V [choice] data.subject (data.subject.domain.zip ids))
  (done : branch choice ids options n = .ok id m) (found : m.episode id = .ok e)

include whole chosen unanchored h done found

theorem governed_of_branch (separate : n.Separate choice data.subject ids)
    (covered : data.subject.arity = ids.length) :
    Governed V n m choice data.subject ids e where
  inside := by
    intro entry member x inside v
    have among := (List.of_mem_zip (a := entry.1) member).2
    have part := (comprises_iff_of_mem whole separate.there among).mp inside
    obtain ⟨_, makes, composition⟩ := makes_branch (v := v) unanchored whole h.uses done
    rw [makes.kept (h.has entry member x part), composition]
    refine and_congr_right fun _ => ⟨fun lets => lets data chosen entry member part, ?_⟩
    intro taken data' chosen' other member' part'
    obtain rfl := Except.ok.inj (chosen.symm.trans chosen')
    obtain rfl : other = entry := by
      by_contra differ
      have : Std.Symm fun a b : String × EpisodeId => ∀ x ∈ n.parts a.2, x ∉ n.parts b.2 :=
        ⟨fun _ _ apart x part part' => apart x part' part⟩
      exact h.apart.forall member' member differ x part' part
    exact taken
  links := by
    obtain ⟨_, found', routed⟩ := routed_of_branch h chosen unanchored done
    exact Except.ok.inj (found'.symm.trans found) ▸ routed
  finish := by
    intro goes v
    obtain ⟨_, makes, composition⟩ := makes_branch (v := v) unanchored whole h.uses done
    obtain rfl := Except.ok.inj (makes.found.symm.trans found)
    rw [makes.ends, composition]
    have going := (makes.branches _ _ composition).2 goes
    obtain ⟨child, member, only⟩ := exists_picks_iff (v := v) whole h.uses.choice chosen covered
      (going.elim fun _ ⟨listed, _⟩ => List.ne_nil_of_mem listed)
    constructor
    · intro continues
      obtain ⟨f, there⟩ := separate.there child member
      have picked := (only child).mpr rfl
      have goes := continues going child picked
      exact ⟨child, picked, f, there, (isTerminal_eq there).symm.trans goes⟩
    · rintro ⟨picked, picks, f, there, goes⟩ _ other picks'
      rw [(only other).mp picks', ← (only picked).mp picks, isTerminal_eq there, goes]

/-- If all episodes end the execution, then no link leads to the end. -/
theorem finish_ne_of_branch (terminal : e.terminal = true) : ∀ c ∈ e.constraints.toList,
    ∃ t, m.temporal c = .ok t ∧ t.finish ≠ e.finish := by
  have all := (terminal_branch_iff done found).mp terminal
  obtain ⟨_, found', branches, constraints, routed⟩ := routed_of_branch h chosen unanchored done
  obtain rfl := Except.ok.inj (found'.symm.trans found)
  obtain ⟨children, e', _, adds⟩ := adds_branch done
  obtain rfl := Except.ok.inj (adds.found.symm.trans found)
  have step : Tightened (fun _ => True) (fun _ => True) n m :=
    tightened_branch done (fun _ _ _ _ => .inl trivial) fun _ _ _ => trivial
  have new : ¬ n.Has (.event e'.finish) := by
    have closing := adds.finish
    rw [Composing.closing, unanchored.finish] at closing
    exact not_has_event (congrArg Handle.index (Option.some.inj closing)).symm
  intro c member
  rw [constraints] at member
  obtain ⟨links, listed, inside⟩ := List.mem_flatten.mp (OrdSet.mem_of_mem_ofList member)
  obtain ⟨size, routed⟩ := List.forall₂_iff_zip.mp routed
  obtain ⟨child, paired⟩ := exists_mem_zip size listed
  obtain ⟨f, opening, there, ⟨⟨t, linked, _, last⟩, _⟩, rest⟩ := routed paired
  obtain ⟨f', there', ends⟩ := all child (List.of_mem_zip paired).1
  obtain ⟨g, grown⟩ := step.episode there'
  obtain rfl := Except.ok.inj (grown.symm.trans there)
  rcases rest with ⟨_, rfl⟩ | ⟨goes, _⟩
  · obtain rfl := List.mem_singleton.mp inside
    refine ⟨t, linked, fun same => new ?_⟩
    rw [← same, last]
    exact WellFormed.has_event (whole.episode there').start
  · rw [show f'.terminal = false from goes] at ends
    cases ends

end Selection

end Edit

/-- A branching is governed by its choice. Let a network have come about in any way, and let
its guards be in order. Let a choice always exist, and let there be as many episodes as it
has values, with nothing in common and nothing to do with the choice. The composition, with
an end of its own, succeeds; some episodes, all or none of them may end the execution.
What belongs to an episode exists afterwards where it did and the choice has the value of
the episode. The links of an episode apply where its start exists and where its end does.
The whole ends the execution if and only if all episodes do, and then none of the links
leads to its end; otherwise this end exists just where an episode is selected that does not
end the execution. There are two links for each episode, or one if it ends the execution,
and there is no other new temporal constraint but the duration. -/
theorem branching_is_governed {data : Choice}
    (reachable : n.Reachable ∨ ∃ p : Program, p.Reachable .free ∧ p.network = n)
    (sensible : n.Sensible) (chosen : n.choice choice = .ok data)
    (always : ∀ V : Vocabulary, V.Suits n → ∀ v : Valuation V, n.Occurs v (.event choice))
    (covered : data.subject.arity = ids.length) (separate : n.Separate choice data.subject ids)
    (unanchored : options.Unanchored)
    (resolved : (options.duration.getD .unconstrained).resolve = .ok bounds) :
    (∃ V : Vocabulary, V.Suits n) ∧ ∃ id m e, Edit.branch choice ids options n = .ok id m ∧
      m.episode id = .ok e ∧ (e.terminal = true ↔ ∀ id ∈ ids, n.Flagged id true) ∧
      (e.terminal = true → ∀ c ∈ e.constraints.toList,
        ∃ t, m.temporal c = .ok t ∧ t.finish ≠ e.finish) ∧
      e.constraints.size + (ids.filter n.isTerminal).length = 2 * ids.length ∧
      (∀ c ∈ e.constraints.toList, ¬ n.Has (.temporal c)) ∧
      m.temporals.size = n.temporals.size + e.constraints.size + 1 ∧
      ∀ V : Vocabulary, V.Suits n → Governed V n m choice data.subject ids e := by
  obtain ⟨whole, idle⟩ := whole_of_reachable reachable
  have exists_suits := (arises_of_reachable reachable).keyed.exists_suits
  have branchable {V : Vocabulary} (suits : V.Suits n) :=
    separate.branchable whole chosen covered suits (sensible.uses suits)
      (sensible.viable reachable) (always V suits)
  obtain ⟨V, suits⟩ := exists_suits
  obtain ⟨id, m, done, _⟩ :=
    Edit.yields_branch_of_branchable (branchable suits) chosen unanchored suits covered resolved
  obtain ⟨children, e, listed, adds⟩ := Edit.adds_branch done
  obtain ⟨size, new, created⟩ := adds.counts
  refine ⟨⟨V, suits⟩, id, m, e, done, adds.found, Edit.terminal_branch_iff done adds.found,
    Edit.finish_ne_of_branch whole chosen unanchored (branchable suits) done adds.found, ?_, new,
    created, fun V suits => Edit.governed_of_branch whole chosen unanchored (branchable suits) done
      adds.found separate covered⟩
  rw [size]
  exact Edit.length_flatMap_toward listed

/-! ## Episodes of which some end the execution -/

/-- A choice with three values and one with two, and four episodes, of which the second one
and the last one end the execution. The first episode is executed only if the second choice
takes its first value. -/
@[irreducible] def threefold : Network :=
  (Network.empty .zero).afterCalls [
    ⟨_, .addChoice { domain := ["A", "B", "C"], id := some "x", kind := some .controllable }⟩,
    ⟨_, .addChoice { domain := ["A", "B"], id := some "y", kind := some .controllable }⟩,
    ⟨_, .addEpisode {}⟩, ⟨_, .addEpisode { terminal := true }⟩, ⟨_, .addEpisode {}⟩,
    ⟨_, .addEpisode { terminal := true }⟩, ⟨_, .propagate ⟨0⟩ (.ofLiteral (.is (asked 2 "y") "A"))⟩]

theorem reachable_threefold : threefold.Reachable := by
  unfold threefold
  exact (Reachable.empty _).afterCalls _

theorem sensible_threefold : threefold.Sensible where
  live := by
    have only : (Support.ofLiteral (.is (asked 2 "y") "A")).Only threefold.Live :=
      Support.only_ofLiteral (live_of_choice ⟨1⟩ (by decide +kernel) (by decide))
    have offers : threefold.Offers threefold.Live := offers_live threefold
    have uses : threefold.Uses threefold.Live := by
      unfold threefold at only offers ⊢
      refine uses_afterCalls (fun call member => ?_) offers
      simp only [List.mem_cons, List.not_mem_nil, or_false] at member
      rcases member with rfl | rfl | rfl | rfl | rfl | rfl | rfl
      · trivial
      · trivial
      · trivial
      · trivial
      · trivial
      · trivial
      · exact only
    exact uses.guard
  met := forall_guard_iff.mpr
    ⟨by decide +kernel, by decide +kernel, by decide +kernel, by decide +kernel⟩

/-- A choice and as many of the episodes, if they have nothing in common. -/
theorem separate_threefold (choice : EventId) (ids : List EpisodeId) (key : Nat)
    (domain : List String) (told : (threefold.choice choice).toOption.map (fun data =>
      (data.subject.key, data.subject.domain)) = some (key, domain))
    (among : ids ⊆ [⟨0⟩, ⟨1⟩, ⟨2⟩, ⟨3⟩])
    (disjoint : ids.Pairwise fun a b => ∀ x ∈ threefold.parts a, x ∉ threefold.parts b)
    (apart : ∀ id ∈ ids, .event choice ∉ threefold.parts id)
    (silent : ∀ id ∈ ids, ∀ x ∈ threefold.parts id, ∀ s ∈ (threefold.support x).toOption,
      s.Only (·.choice.key ≠ key)) :
    ∃ data, threefold.choice choice = .ok data ∧ data.subject.domain = domain ∧
      threefold.Separate choice data.subject ids := by
  obtain ⟨data, chosen, told⟩ := Option.map_eq_some_iff.mp told
  obtain ⟨rfl, rfl⟩ := Prod.mk.inj told
  have inside : ∀ id ∈ ([⟨0⟩, ⟨1⟩, ⟨2⟩, ⟨3⟩] : List EpisodeId),
      id.index < threefold.episodes.size := by decide +kernel
  exact ⟨data, toOption_eq_some_iff.mp chosen, rfl, separate_of_parts
    reachable_threefold.wellFormed (fun id member => exists_episode (inside id (among member)))
    disjoint apart silent⟩

/-- The first three episodes make a branching on the first choice, and the end of it exists
unless the second one is selected. The other two make one on the second choice that ends the
execution. -/
theorem branching_is_governed_threefold : threefold.Reachable ∧ threefold.Sensible ∧
    (∃ (V : Vocabulary) (x : ChoiceVariable) (id : EpisodeId) (m : Network) (e : Episode),
      V.Suits threefold ∧ x.domain = ["A", "B", "C"] ∧
      Edit.branch ⟨0⟩ [⟨0⟩, ⟨1⟩, ⟨2⟩] {} threefold = .ok id m ∧
      m.episode id = .ok e ∧ e.terminal = false ∧ e.constraints.size = 5 ∧
      Governed V threefold m ⟨0⟩ x [⟨0⟩, ⟨1⟩, ⟨2⟩] e) ∧
    ∃ id m e, Edit.branch ⟨1⟩ [⟨1⟩, ⟨3⟩] {} threefold = .ok id m ∧ m.episode id = .ok e ∧
      e.terminal = true ∧ e.constraints.size = 2 ∧
      ∀ c ∈ e.constraints.toList, ∃ t, m.temporal c = .ok t ∧ t.finish ≠ e.finish := by
  have reachable : threefold.Reachable ∨
      ∃ p : Program, p.Reachable .free ∧ p.network = threefold := .inl reachable_threefold
  have unanchored : CompositionOptions.Unanchored {} := ⟨rfl, rfl⟩
  have always (choice : EventId) (shape : (threefold.support (.event choice)).toOption.map
      (fun s => s.toList.map (·.toList)) = some [[]]) (V : Vocabulary) (_ : V.Suits threefold)
      (v : Valuation V) : threefold.Occurs v (.event choice) :=
    occurs_of_literals shape nofun
  refine ⟨reachable_threefold, sensible_threefold, ?_, ?_⟩
  · obtain ⟨data, chosen, domain, separate⟩ :=
      separate_threefold ⟨0⟩ [⟨0⟩, ⟨1⟩, ⟨2⟩] 1 ["A", "B", "C"] (by decide +kernel) (by decide)
        (by decide +kernel) (by decide +kernel) (by decide +kernel)
    have covered : data.subject.arity = ([⟨0⟩, ⟨1⟩, ⟨2⟩] : List EpisodeId).length :=
      congrArg List.length domain
    obtain ⟨⟨V, suits⟩, id, m, e, done, found, terminal, _, count, _, _, governed⟩ :=
      branching_is_governed reachable sensible_threefold chosen (always ⟨0⟩ (by decide +kernel))
        covered separate unanchored resolve_unconstrained
    have ended : ([⟨0⟩, ⟨1⟩, ⟨2⟩] : List EpisodeId).filter threefold.isTerminal = [⟨1⟩] := by
      decide +kernel
    rw [ended] at count
    refine ⟨V, data.subject, id, m, e, suits, domain, done, found, ?_, Nat.add_right_cancel count,
      governed V suits⟩
    rw [← Bool.not_eq_true, terminal]
    exact fun all => absurd (flagged_true_iff.mp (all ⟨0⟩ (by decide))) (by decide +kernel)
  · obtain ⟨data, chosen, domain, separate⟩ :=
      separate_threefold ⟨1⟩ [⟨1⟩, ⟨3⟩] 2 ["A", "B"] (by decide +kernel) (by decide)
        (by decide +kernel) (by decide +kernel) (by decide +kernel)
    have covered : data.subject.arity = ([⟨1⟩, ⟨3⟩] : List EpisodeId).length :=
      congrArg List.length domain
    obtain ⟨_, id, m, e, done, found, terminal, apart, count, _⟩ :=
      branching_is_governed reachable sensible_threefold chosen (always ⟨1⟩ (by decide +kernel))
        covered separate unanchored resolve_unconstrained
    have ended : ([⟨1⟩, ⟨3⟩] : List EpisodeId).filter threefold.isTerminal = [⟨1⟩, ⟨3⟩] := by
      decide +kernel
    have fatal := terminal.mpr fun id member =>
      flagged_true_iff.mpr (List.of_mem_filter (ended.symm ▸ member))
    rw [ended] at count
    exact ⟨id, m, e, done, found, fatal, Nat.add_right_cancel count, apart fatal⟩

end PlanNetwork
