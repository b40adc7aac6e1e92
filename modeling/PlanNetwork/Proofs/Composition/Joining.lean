/-
# Episodes that are joined

A parallel composition joins its episodes to two events one after the other. Whenever one
has been joined, the common end is left to the valuations under which the episode ends as
well; so it has the supports of the ends of all of them in the end, narrowed to each other
in the order of the list. The links that lead from the common start are made between an
event that always exists and one that may not, and have just the support of the latter.

An episode cannot be joined if it ends under none of the valuations that are left to the
common end. Nothing else stands in the way, for every guard has a valuation by itself.
-/

import PlanNetwork.Proofs.Composition.Additions
import PlanNetwork.Proofs.Composition.Admission
import PlanNetwork.Proofs.Composition.Branching

namespace PlanNetwork

open Network

variable {V : Vocabulary} {n m k : Network} {start finish : EventId} {id : EpisodeId}
  {ids : List EpisodeId} {links : TemporalId × TemporalId}
  {pairs : List (TemporalId × TemporalId)} {fault : Fault} {s t : Support} {x : Guarded}
  {narrowed replaced touched : Guarded → Prop}

namespace Network

theorem Tightened.support_iff (step : Tightened narrowed replaced n m) (untouched : ¬ narrowed x)
    (kept : ¬ replaced x) (there : n.Has x) : m.support x = .ok s ↔ n.support x = .ok s := by
  refine ⟨fun found => ?_, step.support untouched kept⟩
  obtain ⟨t, before⟩ := there.exists_support
  obtain rfl := Except.ok.inj ((step.support untouched kept before).symm.trans found)
  exact before

theorem Spans.grows {c : TemporalId} (h : n.Spans c start finish) (grows : Grows touched n m) :
    m.Spans c start finish := by
  obtain ⟨constraint, found, ends⟩ := h
  obtain ⟨g, found'⟩ := grows.temporal found
  exact ⟨_, found', ends⟩

/-- The end of the episode has the support. -/
def EndsUnder (n : Network) (id : EpisodeId) (s : Support) : Prop :=
  ∃ e, n.episode id = .ok e ∧ n.support (.event e.finish) = .ok s

theorem rightUnique_endsUnder (n : Network) : Relator.RightUnique n.EndsUnder := by
  rintro id s t ⟨e, found, ends⟩ ⟨e', found', ends'⟩
  obtain rfl := Except.ok.inj (found.symm.trans found')
  exact Except.ok.inj (ends.symm.trans ends')

theorem EndsUnder.ends_iff {v : Valuation V} (h : n.EndsUnder id s) :
    n.Ends v id ↔ s.Holds v := by
  obtain ⟨e, found, ends⟩ := h
  rw [Network.ends_iff found, occurs_iff_of_support ends]

/-- An episode ends as before if the guards that there were are what they were. -/
theorem EndsUnder.earlier (h : k.EndsUnder id s) (whole : n.WellFormed) (same : SameEpisodes n k)
    (step : Tightened (fun _ => False) (fun _ => False) n k) : n.EndsUnder id s := by
  obtain ⟨e, found, ends⟩ := h
  obtain ⟨g, found'⟩ := same.symm.episode found
  have there := WellFormed.has_event (whole.episode found').finish
  exact ⟨_, found', (step.support_iff not_false not_false there).mp ends⟩

section Ends

variable {supports : List Support} (under : List.Forall₂ n.EndsUnder ids supports)

include under

theorem exists_endsUnder : ∀ t ∈ supports, ∃ id, n.EndsUnder id t := by
  induction under with
  | nil => nofun
  | cons first _ ih => exact List.forall_mem_cons.mpr ⟨⟨_, first⟩, ih⟩

theorem forall_ends_iff {v : Valuation V} :
    (∀ id ∈ ids, n.Ends v id) ↔ ∀ t ∈ supports, t.Holds v := by
  induction under with
  | nil => simp
  | cons first _ ih => rw [List.forall_mem_cons, List.forall_mem_cons, first.ends_iff, ih]

end Ends

/-- The episodes can be joined to the two events as far as guards have no say in it: they
are there, and the event at the end is none of theirs. -/
structure Joinable (V : Vocabulary) (n : Network) (start finish : EventId)
    (ids : List EpisodeId) : Prop where
  /-- The guards and choices are within the vocabulary. -/
  uses : n.Uses (Literal.Within V)
  /-- Every guard has a valuation. -/
  viable : n.Viable
  /-- The one at the start always exists. -/
  starts : n.support (.event start) = .ok .always
  /-- The one at the end is there. -/
  finishes : n.Has (.event finish)
  /-- They are not the same. -/
  distinct : start ≠ finish
  /-- The episodes have other events than the one at the end. -/
  apart : ∀ id ∈ ids, ∃ e, n.episode id = .ok e ∧ n.Has (.event e.start) ∧
    n.Has (.event e.finish) ∧ e.start ≠ finish ∧ e.finish ≠ finish

/-- The episode has links from the one event and to the other. The first of them has the
support that the start of the episode had before. -/
def Joined (n m : Network) (start finish : EventId) (id : EpisodeId)
    (links : TemporalId × TemporalId) : Prop :=
  ∃ f t, n.episode id = .ok f ∧ n.support (.event f.start) = .ok t ∧
    m.Links links.1 start f.start t ∧ m.Spans links.2 f.finish finish

/-- The closing links are there. -/
theorem has_of_joined (joined : List.Forall₂ (Joined n m start finish) ids pairs) :
    ∀ pair ∈ pairs, m.Has (.temporal pair.2) := by
  induction joined with
  | nil => nofun
  | cons first _ ih =>
    obtain ⟨_, _, _, _, _, c, found, _⟩ := first
    exact List.forall_mem_cons.mpr ⟨⟨c.guard, map_eq_ok_iff.mpr ⟨c, found, rfl⟩⟩, ih⟩

theorem Joined.grows (h : Joined n k start finish id links) (grows : Grows touched k m)
    (untouched : ¬ touched (.temporal links.1)) : Joined n m start finish id links := by
  obtain ⟨f, t, found, starts, opens, closes⟩ := h
  exact ⟨f, t, found, starts, opens.grows grows untouched, closes.grows grows⟩

/-- No link is both among the openings and among the closings. -/
theorem opening_ne_closing (nodup : (flatLinks pairs).Nodup) :
    ∀ p ∈ pairs, ∀ q ∈ pairs, p.1 ≠ q.2 := by
  induction pairs with
  | nil => nofun
  | cons pair rest ih =>
    obtain ⟨first, second, others⟩ := nodup |> List.nodup_cons.mp |>.imp_right List.nodup_cons.mp
    intro p member q member'
    rcases List.mem_cons.mp member with rfl | inside <;>
      rcases List.mem_cons.mp member' with rfl | inside'
    · exact fun same => first (same ▸ List.mem_cons_self)
    · exact fun same => first (List.mem_cons_of_mem _ (mem_flatLinks.mpr ⟨q, inside', .inr same⟩))
    · exact fun same => second (mem_flatLinks.mpr ⟨p, inside, .inl same.symm⟩)
    · exact ih others p inside q inside'

/-- It does not matter to the other episodes that one has been joined. -/
theorem Joinable.earlier (h : n.Joinable V start finish ids) (member : id ∈ ids)
    (step : Tightened (.event finish = ·) (fun _ => False) n k) :
    (∀ t, k.EndsUnder id t → n.EndsUnder id t) ∧
      ∀ pair, Joined k m start finish id pair → Joined n m start finish id pair := by
  obtain ⟨e, found, opens, closes, apart, apart'⟩ := h.apart id member
  obtain ⟨g, found'⟩ := step.episode found
  have other {event : EventId} (differ : event ≠ finish) : ¬ Guarded.event finish = .event event :=
    fun same => differ (Guarded.event.inj same).symm
  constructor
  · rintro t ⟨f, there, ends⟩
    obtain rfl := Except.ok.inj (found'.symm.trans there)
    exact ⟨e, found, (step.support_iff (other apart') not_false closes).mp ends⟩
  · rintro pair ⟨f, t, there, starts, joined⟩
    obtain rfl := Except.ok.inj (found'.symm.trans there)
    exact ⟨e, t, found, (step.support_iff (other apart) not_false opens).mp starts, joined⟩

end Network

namespace Edit

theorem support_of_narrow {u : Unit} (done : narrow x t n = .ok u m) (found : n.support x = .ok s) :
    m.support x = .ok (s.and t) := by
  obtain ⟨old, new, there, narrowed, rfl⟩ := narrow_eq_ok_iff.mp done
  obtain rfl := Except.ok.inj (there.symm.trans found)
  obtain ⟨_, rfl⟩ := Support.tryAnd_eq_ok_iff.mp narrowed
  exact support_eq_ok_iff.mpr (guard_setGuard_self (guard_note.trans (support_eq_ok_iff.mp found)))

/-- What always exists leaves a link to the support of the other event. -/
theorem links_link_of_always {bounds : Bounds} {c : TemporalId}
    (done : link start finish bounds n = .ok c m)
    (starts : n.support (.event start) = .ok .always)
    (finishes : n.support (.event finish) = .ok t)
    (met : ∀ c ∈ t.toList, c.isSatisfiable = true) : m.Links c start finish t := by
  obtain ⟨both, ends, linked⟩ := Attempt.read_bind_eq_ok_iff.mp done
  obtain ⟨first, second, there, there', narrowed⟩ := endpointSupport_eq_ok_iff.mp ends
  obtain rfl := Except.ok.inj (there.symm.trans starts)
  obtain rfl := Except.ok.inj (there'.symm.trans finishes)
  obtain ⟨_, rfl⟩ := Support.tryAnd_eq_ok_iff.mp narrowed
  rw [Support.always_and met] at linked
  exact ⟨support_of_linkUnder linked, spans_of_linkUnder linked⟩

/-! ## One episode -/

theorem joinable_joinBranch (h : n.Joinable V start finish ids)
    (done : joinBranch start finish id n = .ok links m) : m.Joinable V start finish ids := by
  have step : Tightened (.event finish = ·) (fun _ => False) n m :=
    (tightens_joinBranch (.inl rfl)).of_ok done
  refine ⟨(repeats_joinBranch start finish _).of_ok done h.uses,
    h.viable.evolution ((follows_joinBranch ..).of_ok done).evolution,
    step.support (fun same => h.distinct (Guarded.event.inj same).symm) not_false h.starts,
    step.has h.finishes, h.distinct, fun id member => ?_⟩
  obtain ⟨e, found, opens, closes, apart⟩ := h.apart id member
  obtain ⟨g, found'⟩ := step.episode found
  exact ⟨_, found', step.has opens, step.has closes, apart⟩

/-- If an episode cannot be joined, then because of guards, and it ends nowhere where the
common end exists. -/
theorem of_joinBranch_eq_error (h : n.Joinable V start finish ids) (member : id ∈ ids)
    (refused : joinBranch start finish id n = .error fault m) :
    (∃ clash, fault = .inconsistent clash) ∧
      ∀ v : Valuation V, n.Occurs v (.event finish) → ¬ n.Ends v id := by
  obtain ⟨e, found, opens, closes, _, _⟩ := h.apart id member
  have speaks := h.uses.speaks
  have refused := Attempt.of_read_bind_eq_error refused found
  rcases Attempt.bind_eq_error_iff.mp refused with stopped | ⟨opening, k₁, opened, rest⟩
  · -- the common start always exists, so this cannot be
    obtain ⟨v, occurs⟩ := h.viable.exists_occurs speaks opens
    have always := (occurs_iff_of_support h.starts).mpr (Support.holds_always v)
    exact absurd ⟨v, always, occurs⟩ (of_link_eq_error always.has opens stopped speaks).2
  have step : Tightened (fun _ => False) (fun _ => False) n k₁ := (tightens_link ..).of_ok opened
  rcases Attempt.bind_eq_error_iff.mp rest with stopped | ⟨closing, k₂, closed, rest⟩
  · obtain ⟨clash, apart⟩ := of_link_eq_error (step.has closes) (step.has h.finishes) stopped
      (speaks_link opened speaks)
    refine ⟨clash, fun v occurs ends => apart ⟨v, ?_, step.occurs not_false not_false occurs⟩⟩
    exact step.occurs not_false not_false ((ends_iff found).mp ends)
  have steps : Tightened (fun _ => False) (fun _ => False) n k₂ :=
    step.trans ((tightens_link ..).of_ok closed)
  have speaks₂ : k₂.Speaks V := speaks_link closed (speaks_link opened speaks)
  obtain ⟨s, there⟩ := (steps.has closes).exists_support
  have rest := Attempt.of_read_bind_eq_error rest there
  rcases Attempt.bind_eq_error_iff.mp rest with stopped | ⟨_, _, _, ⟨⟨⟩⟩⟩
  have last := steps.has h.finishes
  obtain ⟨_, old, _, _, clash⟩ := of_narrow_eq_error last stopped
  refine ⟨⟨_, clash⟩, fun v occurs ends => ?_⟩
  have ends' := steps.occurs not_false not_false ((ends_iff found).mp ends)
  exact not_compatible_of_narrow last stopped speaks₂ (speaks₂.support there)
    ⟨v, steps.occurs not_false not_false occurs, (occurs_iff_of_support there).mp ends'⟩

/-- An episode that has been joined narrows the common end to its own. -/
theorem joined_joinBranch (h : n.Joinable V start finish ids) (member : id ∈ ids)
    (done : joinBranch start finish id n = .ok links m)
    (finishes : n.support (.event finish) = .ok s) : ∃ t, n.EndsUnder id t ∧
      m.support (.event finish) = .ok (s.and t) ∧ Joined n m start finish id links := by
  obtain ⟨e, k₁, k₂, t, found, opened, closed, read, narrows⟩ := joinBranch_eq_ok done
  obtain ⟨e', found', opens, closes, _, _⟩ := h.apart id member
  obtain rfl := Except.ok.inj (found.symm.trans found')
  have first : Tightened (fun _ => False) (fun _ => False) n k₁ := (tightens_link ..).of_ok opened
  have second : Tightened (fun _ => False) (fun _ => False) k₁ k₂ := (tightens_link ..).of_ok closed
  have steps := first.trans second
  have last : Tightened (.event finish = ·) (fun _ => False) k₂ m :=
    (tightens_narrow (.inl rfl)).of_ok narrows
  refine ⟨t, ⟨e, found, (steps.support_iff not_false not_false closes).mp read⟩,
    support_of_narrow narrows (steps.support not_false not_false finishes), ?_⟩
  obtain ⟨u, there⟩ := opens.exists_support
  have met := (h.viable _ _ (support_eq_ok_iff.mp there)).all
  have links := links_link_of_always opened h.starts there met
  exact ⟨e, u, found, there, (links.grows second.toGrows (by simp)).grows last.toGrows (by simp),
    (spans_of_link closed).grows last.toGrows⟩

/-! ## All episodes -/

theorem joinable_joinBranches {rest : List EpisodeId} (h : n.Joinable V start finish ids)
    (done : joinBranches start finish rest n = .ok pairs m) : m.Joinable V start finish ids := by
  induction rest generalizing n pairs with
  | nil =>
    obtain ⟨_, rfl⟩ := Attempt.pure_eq_ok_iff.mp done
    exact h
  | cons id rest ih =>
    obtain ⟨_, k, others, joined, remaining, rfl⟩ := joinBranches_cons_eq_ok done
    exact ih (joinable_joinBranch h joined) remaining

/-- If they cannot be joined, then there is no valuation under which all of them end and
the common end exists. -/
theorem of_joinBranches_eq_error (h : n.Joinable V start finish ids)
    (refused : joinBranches start finish ids n = .error fault m) :
    (∃ clash, fault = .inconsistent clash) ∧
      ∀ v : Valuation V, n.Occurs v (.event finish) → ¬ ∀ id ∈ ids, n.Ends v id := by
  induction ids generalizing n with
  | nil => cases refused
  | cons id rest ih =>
    rcases Attempt.bind_eq_error_iff.mp refused with stopped | ⟨links, k, joined, later⟩
    · obtain ⟨clash, apart⟩ := of_joinBranch_eq_error h List.mem_cons_self stopped
      exact ⟨clash, fun v occurs ends => apart v occurs (ends id List.mem_cons_self)⟩
    rcases Attempt.bind_eq_error_iff.mp later with stopped | ⟨_, _, _, ⟨⟨⟩⟩⟩
    have still := joinable_joinBranch h joined
    obtain ⟨clash, apart⟩ := ih { still with
      apart := fun id member => still.apart id (List.mem_cons_of_mem _ member) } stopped
    refine ⟨clash, fun v occurs ends => ?_⟩
    -- where all of them end, the first one takes nothing away
    have spared {x : Guarded} (occurs : n.Occurs v x) : k.Occurs v x := by
      refine (occurs_joinBranch_iff joined h.uses.speaks (fun e found => ?_) occurs.has).mpr
        ⟨occurs, fun _ => ends id List.mem_cons_self⟩
      obtain ⟨_, found', _, closes, _⟩ := h.apart id List.mem_cons_self
      exact Except.ok.inj (found.symm.trans found') ▸ closes
    refine apart v (spared occurs) fun id member => ?_
    obtain ⟨e, found, occurs⟩ := ends id (List.mem_cons_of_mem _ member)
    exact (sameEpisodes_joinBranch joined).ends_iff.mpr ⟨e, found, spared occurs⟩

/-- The common end has been narrowed to the end of one episode after the other. -/
theorem joined_joinBranches (h : n.Joinable V start finish ids)
    (done : joinBranches start finish ids n = .ok pairs m)
    (finishes : n.support (.event finish) = .ok s) : ∃ ends,
      List.Forall₂ n.EndsUnder ids ends ∧ m.support (.event finish) = .ok (s.narrowedBy ends) ∧
      List.Forall₂ (Joined n m start finish) ids pairs := by
  induction ids generalizing n s pairs with
  | nil =>
    obtain ⟨rfl, rfl⟩ := Attempt.pure_eq_ok_iff.mp done
    exact ⟨[], .nil, finishes, .nil⟩
  | cons id rest ih =>
    obtain ⟨links, k, others, joined, remaining, rfl⟩ := joinBranches_cons_eq_ok done
    have step : Tightened (.event finish = ·) (fun _ => False) n k :=
      (tightens_joinBranch (.inl rfl)).of_ok joined
    have steps : Tightened (.event finish = ·) (fun _ => False) k m :=
      (tightens_joinBranches (.inl rfl)).of_ok remaining
    obtain ⟨t, ends, narrowed, first⟩ := joined_joinBranch h List.mem_cons_self joined finishes
    have still := joinable_joinBranch h joined
    obtain ⟨later, ends', narrowed', second⟩ := ih { still with
      apart := fun id member => still.apart id (List.mem_cons_of_mem _ member) } remaining narrowed
    have earlier {id : EpisodeId} (member : id ∈ rest) :=
      h.earlier (m := m) (List.mem_cons_of_mem _ member) step
    refine ⟨t :: later, .cons ends ?_, narrowed', .cons (first.grows steps.toGrows (by simp)) ?_⟩
    · exact ((List.forall₂_and_left _ _).mpr ⟨fun _ member => member, ends'⟩).imp
        fun _ t ⟨member, ends⟩ => (earlier member).1 t ends
    · exact ((List.forall₂_and_left _ _).mpr ⟨fun _ member => member, second⟩).imp
        fun _ pair ⟨member, joined⟩ => (earlier member).2 pair joined

end Edit

end PlanNetwork
