/-
# What goes on to occur

Composing takes old elements away where the supports that it narrows them to do not
hold, and nowhere else. What follows in a sequence occurs only where the episodes
before it end, a branch only where the choice takes its value, and the end of a
parallel composition only where all episodes end.

The parts of an episode may be shared with others. They may even be the ends of the
episodes before it, and what is said here is true all the same.
-/

import PlanNetwork.Proofs.Composition.Literals
import PlanNetwork.Proofs.Composition.Presupposition

namespace PlanNetwork

open Network

variable {V : Vocabulary} {v : Valuation V} {n m k : Network} {x : Guarded} {s : Support}
  {id : EpisodeId} {e : Episode}

namespace Network

/-- The end of the episode occurs. -/
def Ends (n : Network) (v : Valuation V) (id : EpisodeId) : Prop :=
  ∃ e, n.episode id = .ok e ∧ n.Occurs v (.event e.finish)

theorem ends_iff (found : n.episode id = .ok e) : n.Ends v id ↔ n.Occurs v (.event e.finish) := by
  refine ⟨fun ⟨f, there, occurs⟩ => ?_, fun occurs => ⟨e, found, occurs⟩⟩
  exact Except.ok.inj (there.symm.trans found) ▸ occurs

/-- An episode ends with the same event as before. -/
theorem SameEpisodes.ends_iff (same : SameEpisodes n m) :
    m.Ends v id ↔ ∃ e, n.episode id = .ok e ∧ m.Occurs v (.event e.finish) := by
  constructor
  · rintro ⟨e, found, occurs⟩
    obtain ⟨g, found'⟩ := same.symm.episode found
    exact ⟨_, found', occurs⟩
  · rintro ⟨e, found, occurs⟩
    obtain ⟨g, found'⟩ := same.episode found
    exact ⟨_, found', occurs⟩

theorem Uses.speaks (h : n.Uses (Literal.Within V)) : n.Speaks V := h.guard

theorem Same.occurs_iff (same : Same n m) : m.Occurs v x ↔ n.Occurs v x := by
  rw [Occurs, Occurs, support, support, same.guards]

end Network

namespace Edit

/-! ## Narrowing -/

theorem occurs_iff_of_narrowed {L : List Guarded} (narrowed : Narrowed s L n m)
    (step : Tightened (· ∈ L) (fun _ => False) n m) (spares : SparesUnder s V n m) :
    m.Occurs v x ↔ n.Occurs v x ∧ (x ∈ L → s.Holds v) := by
  constructor
  · intro occurs
    refine ⟨step.occurs_before not_false (Grows.has_of_bare narrowed.bare.symm occurs.has) occurs,
      fun part => ?_⟩
    obtain ⟨old, new, result, found⟩ := narrowed.inside x part
    exact (Support.refines_right_of_tryAnd result).entails v ((occurs_iff_of_support found).mp occurs)
  · rintro ⟨occurs, holds⟩
    by_cases part : x ∈ L
    · exact spares.occurs (holds part) occurs
    · exact step.occurs part not_false occurs

theorem occurs_narrow_iff {element : Guarded} {u : Unit} (done : narrow element s n = .ok u m)
    (speaks : n.Speaks V) (within : s.Within V) :
    m.Occurs v x ↔ n.Occurs v x ∧ (x = element → s.Holds v) := by
  have each : Attempt.each (narrow · s) [element] n = .ok () m :=
    Attempt.bind_eq_ok_iff.mpr ⟨u, m, done, rfl⟩
  have step : Tightened (· ∈ [element]) (fun _ => False) n m :=
    (tightens_narrow (.inl (List.mem_singleton_self _))).of_ok done
  rw [occurs_iff_of_narrowed (narrowed_each each) step (sparesUnder_narrow done speaks within),
    List.mem_singleton]

theorem occurs_propagate_iff {u : Unit} (done : propagate id s n = .ok u m) (speaks : n.Speaks V)
    (within : s.Within V) : m.Occurs v x ↔ n.Occurs v x ∧ (x ∈ n.parts id → s.Holds v) :=
  occurs_iff_of_narrowed (narrowed_propagate done)
    ((tightens_propagate fun _ part => .inl part).of_ok done)
    (sparesUnder_propagate done speaks within)

/-! ## Sequences -/

/-- What is inside the next episode occurs only where the one before it ends. -/
theorem occurs_follow_iff {gap : Number} {first second : EpisodeId} {c : TemporalId}
    (done : follow gap first second n = .ok c m) (speaks : n.Speaks V) (there : n.Has x) :
    m.Occurs v x ↔ n.Occurs v x ∧ (x ∈ n.parts second → n.Ends v first) := by
  obtain ⟨e, s, k, _, _, found, _, finish, propagated, _, _, linked⟩ := follow_eq_ok done
  have narrows : Tightened (fun _ => True) (fun _ => False) n k :=
    (tightens_propagate fun _ _ => .inl trivial).of_ok propagated
  have links : Tightened (fun _ => False) (fun _ => False) k m :=
    (tightens_linkUnder ..).of_ok linked
  rw [links.occurs_iff not_false not_false (narrows.has there),
    occurs_propagate_iff propagated speaks (speaks.support finish), ends_iff found,
    occurs_iff_of_support finish]

/-- What is inside an episode of a sequence occurs only where all those before it
end. -/
theorem occurs_followAll_iff {gap : Number} {ids : List EpisodeId} {links : List TemporalId}
    (done : followAll gap ids n = .ok links m) (uses : n.Uses (Literal.Within V))
    (ending : ∀ id e, n.episode id = .ok e → n.Has (.event e.finish)) (there : n.Has x) :
    m.Occurs v x ↔
      n.Occurs v x ∧ ids.Pairwise fun other id => x ∈ n.parts id → n.Ends v other := by
  induction ids generalizing n links with
  | nil =>
    obtain ⟨_, rfl⟩ := Attempt.pure_eq_ok_iff.mp done
    simp
  | cons first rest ih =>
    cases rest with
    | nil =>
      obtain ⟨_, rfl⟩ := Attempt.pure_eq_ok_iff.mp done
      simp
    | cons second rest =>
      obtain ⟨c, k, others, followed, remaining, rfl⟩ := followAll_cons_eq_ok done
      have episodes := sameEpisodes_follow followed
      have step : Tightened (fun _ => True) (fun _ => False) n k :=
        (tightens_follow fun _ _ => .inl trivial).of_ok followed
      have occurs {y : Guarded} (there : n.Has y) :
          k.Occurs v y ↔ n.Occurs v y ∧ (y ∈ n.parts second → n.Ends v first) :=
        occurs_follow_iff followed uses.speaks there
      have later := ih remaining ((repeats_follow gap first second).of_ok followed uses)
        (fun id e found => by
          obtain ⟨g, found'⟩ := episodes.symm.episode found
          exact step.has (ending id { e with guard := g } found')) (step.has there)
      -- where the first one ends, the others end where they did
      have before {id : EpisodeId} (ends : k.Ends v id) : n.Ends v id := by
        obtain ⟨e, found, occurs'⟩ := episodes.ends_iff.mp ends
        exact ⟨e, found, ((occurs (ending id e found)).mp occurs').1⟩
      have still {id : EpisodeId} (ends : n.Ends v id) (first' : n.Ends v first) : k.Ends v id := by
        obtain ⟨e, found, occurs'⟩ := ends
        exact episodes.ends_iff.mpr ⟨e, found, (occurs (ending id e found)).mpr ⟨occurs', fun _ => first'⟩⟩
      have behind (ends : k.Ends v second) : n.Ends v first := by
        obtain ⟨e, found, occurs'⟩ := episodes.ends_iff.mp ends
        exact ((occurs (ending second e found)).mp occurs').2 (mem_parts_finish found)
      simp only [episodes.parts] at later
      rw [later, occurs there, List.pairwise_cons (a := first)]
      constructor
      · rintro ⟨⟨occurs', next⟩, between⟩
        refine ⟨occurs', fun id member part => ?_, between.imp fun ends part => before (ends part)⟩
        rcases List.mem_cons.mp member with rfl | member
        · exact next part
        · exact behind ((List.pairwise_cons.mp between).1 id member part)
      · rintro ⟨occurs', ahead, between⟩
        exact ⟨⟨occurs', ahead second List.mem_cons_self⟩, between.imp_of_mem
          fun _ member ends part => still (ends part) (ahead _ member part)⟩

/-! ## Parallel compositions -/

/-- The end occurs only where that of the episode does. -/
theorem occurs_joinBranch_iff {start finish : EventId} {links : TemporalId × TemporalId}
    (done : joinBranch start finish id n = .ok links m) (speaks : n.Speaks V)
    (ending : ∀ e, n.episode id = .ok e → n.Has (.event e.finish)) (there : n.Has x) :
    m.Occurs v x ↔ n.Occurs v x ∧ (x = .event finish → n.Ends v id) := by
  obtain ⟨e, k₁, k₂, s, found, opened, closed, read, narrows⟩ := joinBranch_eq_ok done
  have links : Tightened (fun _ => False) (fun _ => False) n k₂ :=
    .trans ((tightens_link ..).of_ok opened) ((tightens_link ..).of_ok closed)
  have speaks₂ : k₂.Speaks V := speaks_link closed (speaks_link opened speaks)
  rw [occurs_narrow_iff narrows speaks₂ (speaks₂.support read), ends_iff found,
    links.occurs_iff not_false not_false there, ← occurs_iff_of_support read,
    links.occurs_iff not_false not_false (ending e found)]

/-- The end occurs only where those of all episodes do. -/
theorem occurs_joinBranches_iff {start finish : EventId} {ids : List EpisodeId}
    {links : List (TemporalId × TemporalId)}
    (done : joinBranches start finish ids n = .ok links m) (uses : n.Uses (Literal.Within V))
    (ending : ∀ id e, n.episode id = .ok e → n.Has (.event e.finish)) (there : n.Has x) :
    m.Occurs v x ↔ n.Occurs v x ∧ (x = .event finish → ∀ id ∈ ids, n.Ends v id) := by
  induction ids generalizing n links with
  | nil =>
    obtain ⟨_, rfl⟩ := Attempt.pure_eq_ok_iff.mp done
    simp
  | cons first rest ih =>
    obtain ⟨l, k, others, joined, remaining, rfl⟩ := joinBranches_cons_eq_ok done
    have episodes := sameEpisodes_joinBranch joined
    have step : Tightened (fun _ => True) (fun _ => False) n k :=
      (tightens_joinBranch (.inl trivial)).of_ok joined
    have occurs {y : Guarded} (there : n.Has y) :
        k.Occurs v y ↔ n.Occurs v y ∧ (y = .event finish → n.Ends v first) :=
      occurs_joinBranch_iff joined uses.speaks (ending first) there
    have later := ih remaining ((repeats_joinBranch start finish first).of_ok joined uses)
      (fun id e found => by
        obtain ⟨g, found'⟩ := episodes.symm.episode found
        exact step.has (ending id { e with guard := g } found')) (step.has there)
    rw [later, occurs there, List.forall_mem_cons]
    constructor
    · rintro ⟨⟨occurs', ends⟩, ends'⟩
      refine ⟨occurs', fun same => ⟨ends same, fun id member => ?_⟩⟩
      obtain ⟨e, found, occurs''⟩ := episodes.ends_iff.mp (ends' same id member)
      exact ⟨e, found, ((occurs (ending id e found)).mp occurs'').1⟩
    · rintro ⟨occurs', ends⟩
      refine ⟨⟨occurs', fun same => (ends same).1⟩, fun same id member => ?_⟩
      obtain ⟨e, found, occurs''⟩ := (ends same).2 id member
      exact episodes.ends_iff.mpr ⟨e, found, (occurs (ending id e found)).mpr
        ⟨occurs'', fun _ => (ends same).1⟩⟩

/-! ## Branchings -/

variable {choice finish : EventId} {subject : ChoiceVariable} {value : String}

theorem occurs_addBranch_iff {branch : Branch}
    (done : addBranch choice finish subject value id n = .ok branch m) (speaks : n.Speaks V)
    (within : (Literal.is subject value).Within V) (there : n.Has x) :
    m.Occurs v x ↔ n.Occurs v x ∧ (x ∈ n.parts id → v.value subject.key = value) := by
  obtain ⟨k, propagated, links⟩ := exists_propagate_of_addBranch done
  have narrows : Tightened (fun _ => True) (fun _ => False) n k :=
    (tightens_propagate fun _ _ => .inl trivial).of_ok propagated
  rw [links.occurs_iff not_false not_false (narrows.has there),
    occurs_propagate_iff propagated speaks (Support.only_ofLiteral within), Support.holds_ofLiteral]
  rfl

/-- What is inside branches occurs only where the choice takes their values. -/
theorem occurs_addBranches_iff {entries : List (String × EpisodeId)} {branches : List Branch}
    (done : addBranches choice finish subject entries n = .ok branches m)
    (uses : n.Uses (Literal.Within V))
    (within : ∀ entry ∈ entries, (Literal.is subject entry.1).Within V) (there : n.Has x) :
    m.Occurs v x ↔ n.Occurs v x ∧
      ∀ entry ∈ entries, x ∈ n.parts entry.2 → v.value subject.key = entry.1 := by
  induction entries generalizing n branches with
  | nil =>
    obtain ⟨_, rfl⟩ := Attempt.pure_eq_ok_iff.mp done
    simp
  | cons entry rest ih =>
    obtain ⟨branch, k, others, added, remaining, rfl⟩ := addBranches_cons_eq_ok done
    obtain ⟨within, within'⟩ := List.forall_mem_cons.mp within
    have step : Tightened (fun _ => True) (fun _ => False) n k :=
      (tightens_addBranch fun _ _ => .inl trivial).of_ok added
    rw [ih remaining ((repeats_addBranch _ _ within _).of_ok added uses) within' (step.has there),
      occurs_addBranch_iff added uses.speaks within there, List.forall_mem_cons, and_assoc]
    simp only [(sameEpisodes_addBranch added).parts]

end Edit

end PlanNetwork
