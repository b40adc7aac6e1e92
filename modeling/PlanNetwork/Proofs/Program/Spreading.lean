/-
# Spreading a state constraint

A state constraint that is to hold during an episode has to hold throughout every episode
inside it. So attaching it goes down into composites, and writes three sets at each episode
that it meets. Only the episode at which it starts may get less than that.

Composites can share internal episodes, and then an episode is met along several ways. What
is written the second time is there already, so only which episodes are met matters, and not
how often. The handles are looked up before anything is written, and inside an episode that
is there nothing is missing, so it never stops halfway.
-/

import PlanNetwork.Proofs.Program.Coverage

namespace PlanNetwork

open Network

variable {n m : Network} {id x : EpisodeId} {c : StateConstraintId} {e : Episode}
  {span : Edit.Span} {own : Episode → Episode}

/-! ## One episode -/

theorem Episode.mem_overall_iff :
    c ∈ e.overall.toList ↔ c ∈ e.atStart.toList ∧ c ∈ e.atFinish.toList ∧ c ∈ e.during.toList := by
  simp only [Episode.overall, OrdSet.filter, List.mem_filter, Bool.and_eq_true,
    OrdSet.contains_iff_mem]

namespace Edit

theorem mem_stateConstraints_withState_iff {d : StateConstraintId} :
    d ∈ (withState span c e).stateConstraints.toList ↔ d = c ∨ d ∈ e.stateConstraints.toList := by
  cases span <;>
    simp only [Episode.stateConstraints, withState, OrdSet.mem_union_iff, OrdSet.mem_insert_iff] <;>
    tauto

theorem composition_withState : (withState span c e).composition = e.composition := by
  cases span <;> rfl

/-- To attach a constraint again changes nothing. -/
theorem withState_overall_again :
    withState .overall c (withState .overall c e) = withState .overall c e := by
  have again (s : OrdSet StateConstraintId) : (s.insert c).insert c = s.insert c :=
    OrdSet.insert_eq_self (OrdSet.mem_insert_iff.mpr (.inl rfl)) Std.ReflCmp.compare_self
  simp only [withState, again]

end Edit

namespace Network

theorem modifyEpisode_self (n : Network) (id : EpisodeId) (change : Episode → Episode) :
    (n.modifyEpisode id change).episode id = (n.episode id).map change := by
  rw [episode, episode, lookup, lookup, modifyEpisode, Array.getElem?_modify, if_pos rfl]
  cases n.episodes[id.index]? <;> rfl

theorem modifyEpisode_of_ne (other : x ≠ id) (change : Episode → Episode) :
    (n.modifyEpisode id change).episode x = n.episode x :=
  lookup_modify_of_ne (Ne.symm other)

theorem exists_episode_modifyEpisode (change : Episode → Episode) (found : n.episode x = .ok e) :
    ∃ f, (n.modifyEpisode id change).episode x = .ok f := by
  by_cases same : x = id
  · rw [same, modifyEpisode_self, ← same, found]
    exact ⟨_, rfl⟩
  · exact ⟨e, (modifyEpisode_of_ne same change).trans found⟩

theorem modifyEpisode_twice (n : Network) (id : EpisodeId) (f g : Episode → Episode) :
    (n.modifyEpisode id f).modifyEpisode id g = n.modifyEpisode id (g ∘ f) := by
  refine congrArg (fun episodes => { n with episodes }) (Array.ext_getElem? fun i => ?_)
  simp only [modifyEpisode, Array.getElem?_modify]
  split
  · rw [Option.map_map]
  · rfl

theorem unfolding_modifyEpisode {change : Episode → Episode}
    (keeps : ∀ e, (change e).composition = e.composition) :
    (n.modifyEpisode id change).unfolding x = n.unfolding x := by
  refine unfoldingTo_congr fun x _ => ?_
  simp only [internalEpisodes, modifyEpisode, Array.getElem?_modify]
  by_cases same : id.index = x.index
  · rw [if_pos same]
    cases n.episodes[x.index]? with
    | none => rfl
    | some e => simp only [Option.map_some, keeps]
  · rw [if_neg same]

/-! ## What is below an episode -/

/-- The second episode is reached from the first one by going into composites, at least once. -/
def Below (n : Network) (id x : EpisodeId) : Prop :=
  Relation.TransGen (fun outer inner => n.Inside inner outer) id x

theorem reaches_iff_eq_or_below : n.Reaches id x ↔ x = id ∨ n.Below id x :=
  Relation.reflTransGen_iff_eq_or_transGen

theorem WellFormed.below_iff (whole : n.WellFormed) :
    n.Below id x ↔ x ∈ (n.unfolding id).tail := by
  rw [unfolding_eq, List.tail_cons, List.mem_flatMap, Below, Relation.TransGen.head'_iff]
  exact exists_congr fun child => and_congr whole.inside_iff whole.reaches_iff

theorem WellFormed.lt_of_below (whole : n.WellFormed) (below : n.Below id x) :
    x.index < id.index := by
  induction below with
  | single inside =>
    obtain ⟨f, found, inside⟩ := inside
    exact (whole.episode found).children _ inside
  | tail _ inside ih =>
    obtain ⟨f, found, inside⟩ := inside
    exact Nat.lt_trans ((whole.episode found).children _ inside) ih

theorem WellFormed.not_below_self (whole : n.WellFormed) : ¬ n.Below id id :=
  fun below => Nat.lt_irrefl _ (whole.lt_of_below below)

/-! ## Some episodes -/

theorem episode_attachOverall_of_not_mem {ids : List EpisodeId} (apart : x ∉ ids) :
    (Edit.attachOverall c n ids).episode x = n.episode x := by
  induction ids generalizing n with
  | nil => rfl
  | cons id rest ih =>
    rw [List.mem_cons, not_or] at apart
    exact (ih apart.2).trans (modifyEpisode_of_ne apart.1 _)

/-- However often an episode is among those that get the constraint, it has it once. -/
theorem episode_attachOverall_of_mem {ids : List EpisodeId} (member : x ∈ ids) :
    (Edit.attachOverall c n ids).episode x = (n.episode x).map (Edit.withState .overall c) := by
  induction ids generalizing n with
  | nil => cases member
  | cons id rest ih =>
    let first := n.modifyEpisode id (Edit.withState .overall c)
    change (Edit.attachOverall c first rest).episode x = _
    by_cases again : x ∈ rest
    · rw [ih again]
      by_cases same : x = id
      · rw [same, modifyEpisode_self]
        cases n.episode id with
        | error fault => rfl
        | ok e => exact congrArg Except.ok Edit.withState_overall_again
      · rw [modifyEpisode_of_ne same]
    · obtain rfl : x = id := (List.mem_cons.mp member).resolve_right again
      rw [episode_attachOverall_of_not_mem again, modifyEpisode_self]

theorem attachOverall_frame (ids : List EpisodeId) (n : Network) :
    ∃ episodes, Edit.attachOverall c n ids = { n with episodes } ∧
      episodes.size = n.episodes.size := by
  induction ids generalizing n with
  | nil => exact ⟨n.episodes, rfl, rfl⟩
  | cons id rest ih =>
    obtain ⟨episodes, same, size⟩ := ih (n.modifyEpisode id (Edit.withState .overall c))
    exact ⟨episodes, same, size.trans (Array.size_modify ..)⟩

theorem unfolding_attachOverall (ids : List EpisodeId) (n : Network) (x : EpisodeId) :
    (Edit.attachOverall c n ids).unfolding x = n.unfolding x := by
  induction ids generalizing n with
  | nil => rfl
  | cons id rest ih =>
    exact (ih _).trans (unfolding_modifyEpisode fun _ => Edit.composition_withState)

theorem exists_episode_attachOverall (ids : List EpisodeId) (found : n.episode x = .ok e) :
    ∃ f, (Edit.attachOverall c n ids).episode x = .ok f := by
  induction ids generalizing n e with
  | nil => exact ⟨e, found⟩
  | cons id rest ih =>
    obtain ⟨f, found'⟩ := exists_episode_modifyEpisode (Edit.withState .overall c) found
    exact ih found'

/-! ## All that is inside -/

/-- A state constraint has been written down at an episode in its own way, and below it at the
start, at the end and between them. -/
structure Spread (n : Network) (id : EpisodeId) (c : StateConstraintId)
    (own : Episode → Episode) (m : Network) : Prop where
  /-- Nothing but episodes has changed, and there are as many as before. -/
  frame : ∃ episodes, m = { n with episodes } ∧ episodes.size = n.episodes.size
  /-- The episode itself. -/
  here : m.episode id = (n.episode id).map own
  /-- Those below it have got it in all three sets, and have not changed otherwise. -/
  below : ∀ x, n.Below id x → m.episode x = (n.episode x).map fun e =>
    { e with
      atStart := e.atStart.insert c
      atFinish := e.atFinish.insert c
      during := e.during.insert c }
  /-- No other episode has changed. -/
  others : ∀ x, x ≠ id → ¬ n.Below id x → m.episode x = n.episode x

theorem WellFormed.spread_attachOverall (whole : n.WellFormed) (id : EpisodeId)
    (c : StateConstraintId) (own : Episode → Episode) :
    n.Spread id c own
      (Edit.attachOverall c (n.modifyEpisode id own) (n.unfolding id).tail) where
  frame := by
    obtain ⟨episodes, same, size⟩ :=
      attachOverall_frame (c := c) (n.unfolding id).tail (n.modifyEpisode id own)
    exact ⟨episodes, same, size.trans (Array.size_modify ..)⟩
  here := by
    rw [episode_attachOverall_of_not_mem (mt whole.below_iff.mpr whole.not_below_self),
      modifyEpisode_self]
  below x below := by
    have other : x ≠ id := fun same => whole.not_below_self (same ▸ below)
    rw [episode_attachOverall_of_mem (whole.below_iff.mp below), modifyEpisode_of_ne other]
    rfl
  others x other apart := by
    rw [episode_attachOverall_of_not_mem (mt whole.below_iff.mpr apart),
      modifyEpisode_of_ne other]

namespace Spread

/-- What has become of an episode that is reached. -/
theorem exists_of_reaches (spread : n.Spread id c (Edit.withState span c) m)
    (reached : n.Reaches id x) :
    ∃ span, m.episode x = (n.episode x).map (Edit.withState span c) := by
  rcases reaches_iff_eq_or_below.mp reached with rfl | below
  · exact ⟨span, spread.here⟩
  · exact ⟨.overall, spread.below x below⟩

theorem overall_of_below (spread : n.Spread id c own m) (below : n.Below id x)
    (found : n.episode x = .ok e) : ∃ f, m.episode x = .ok f ∧ c ∈ f.overall.toList := by
  rw [spread.below x below, found]
  refine ⟨_, rfl, Episode.mem_overall_iff.mpr ?_⟩
  simp only [OrdSet.mem_insert_iff, true_or, and_self]

variable (whole : n.WellFormed) (spread : n.Spread id c (Edit.withState span c) m)

include whole spread

theorem unfolding_eq (found : n.episode id = .ok e) : m.unfolding id = n.unfolding id := by
  refine unfoldingTo_congr fun x inside => ?_
  obtain ⟨f, there⟩ := exists_of_mem_unfolding found inside
  obtain ⟨_, changed⟩ := spread.exists_of_reaches (whole.reaches_iff.mpr inside)
  rw [there] at changed
  exact internalEpisodes_congr there changed Edit.composition_withState

/-- The constraint is listed with those that were before. -/
theorem allStates (found : n.episode id = .ok e) :
    ∃ old, n.allStates id = .ok old ∧ m.allStates id = .ok (old.insert c) := by
  obtain ⟨old, listed, members⟩ := whole.exists_gathered found Episode.stateConstraints
  refine ⟨old, listed, ?_⟩
  have found' : m.episode id = .ok (Edit.withState span c e) := by rw [spread.here, found]; rfl
  refine visitUnfolding_eq_of_mem_iff Episode.stateConstraints found' fun d => ?_
  rw [OrdSet.mem_insert_iff, members, spread.unfolding_eq whole found]
  constructor
  · rintro (rfl | ⟨x, f, reached, there, own⟩)
    · exact ⟨id, mem_unfolding_self n id, _, found',
        Edit.mem_stateConstraints_withState_iff.mpr (.inl rfl)⟩
    · obtain ⟨_, changed⟩ := spread.exists_of_reaches reached
      rw [there] at changed
      exact ⟨x, whole.reaches_iff.mp reached, _, changed,
        Edit.mem_stateConstraints_withState_iff.mpr (.inr own)⟩
  · rintro ⟨x, inside, g, changed, own⟩
    have reached := whole.reaches_iff.mpr inside
    obtain ⟨f, there⟩ := exists_of_mem_unfolding found inside
    obtain ⟨_, changed'⟩ := spread.exists_of_reaches reached
    rw [there] at changed'
    obtain rfl := Except.ok.inj (changed.symm.trans changed')
    rcases Edit.mem_stateConstraints_withState_iff.mp own with rfl | old
    · exact .inl rfl
    · exact .inr ⟨x, f, reached, there, old⟩

end Spread

end Network

namespace Edit

variable {sc : StateConstraint}

theorem attachState_eq_ok (span : Span) (found : n.episode id = .ok e)
    (there : n.state c = .ok sc) : attachState span id c n = .ok () (match span with
      | .start | .finish => n.modifyEpisode id (withState span c)
      | .during | .overall =>
        attachOverall c (n.modifyEpisode id (withState span c)) (n.unfolding id).tail) :=
  Attempt.read_bind_eq_ok_iff.mpr ⟨sc, there, Attempt.read_bind_eq_ok_iff.mpr ⟨e, found, rfl⟩⟩

theorem attachState_of_unknown_state (span : Span) {fault : Fault}
    (missing : n.state c = .error fault) : attachState span id c n = .error fault n :=
  Attempt.bind_eq_error_iff.mpr (.inl (Attempt.read_eq_error_iff.mpr ⟨missing, rfl⟩))

theorem attachState_of_unknown_episode (span : Span) {fault : Fault} (there : n.state c = .ok sc)
    (missing : n.episode id = .error fault) : attachState span id c n = .error fault n :=
  Attempt.bind_eq_error_iff.mpr (.inr ⟨sc, n, Attempt.read_eq_ok_iff.mpr ⟨there, rfl⟩,
    Attempt.bind_eq_error_iff.mpr (.inl (Attempt.read_eq_error_iff.mpr ⟨missing, rfl⟩))⟩)

/-! ## One episode after the other -/

/-- To attach a constraint throughout is to attach it at the start, at the end and between
them. -/
theorem attachState_overall_eq (id : EpisodeId) (c : StateConstraintId) (n : Network) :
    attachState .overall id c n = (do
      attachState .start id c
      attachState .finish id c
      attachState .during id c) n := by
  cases there : n.state c with
  | error fault =>
    rw [attachState_of_unknown_state .overall there]
    exact (Attempt.bind_eq_error_iff.mpr (.inl (attachState_of_unknown_state .start there))).symm
  | ok sc =>
    cases found : n.episode id with
    | error fault =>
      rw [attachState_of_unknown_episode .overall there found]
      exact (Attempt.bind_eq_error_iff.mpr
        (.inl (attachState_of_unknown_episode .start there found))).symm
    | ok e =>
      let first := n.modifyEpisode id (withState .start c)
      let second := first.modifyEpisode id (withState .finish c)
      have found' : first.episode id = .ok (withState .start c e) := by
        rw [modifyEpisode_self, found]; rfl
      have found'' : second.episode id = .ok (withState .finish c (withState .start c e)) := by
        rw [modifyEpisode_self, found']; rfl
      have written : second.modifyEpisode id (withState .during c) =
          n.modifyEpisode id (withState .overall c) := by
        rw [modifyEpisode_twice, modifyEpisode_twice]
        rfl
      have same : second.unfolding id = n.unfolding id := by
        rw [unfolding_modifyEpisode fun _ => composition_withState,
          unfolding_modifyEpisode fun _ => composition_withState]
      rw [attachState_eq_ok .overall found there, ← written, ← same]
      symm
      refine Attempt.bind_eq_ok_iff.mpr ⟨(), first, attachState_eq_ok .start found there, ?_⟩
      refine Attempt.bind_eq_ok_iff.mpr ⟨(), second, attachState_eq_ok .finish found' there, ?_⟩
      exact attachState_eq_ok .during found'' there

/-- Episodes that are there can get the constraint one after the other. -/
theorem each_attachState {children : List EpisodeId} (there : n.state c = .ok sc)
    (known : ∀ child ∈ children, ∃ e, n.episode child = .ok e) :
    Attempt.each (attachState .overall · c) children n =
      .ok () (attachOverall c n (children.flatMap n.unfolding)) := by
  induction children generalizing n with
  | nil => rfl
  | cons child rest ih =>
    obtain ⟨⟨e, found⟩, known⟩ := List.forall_mem_cons.mp known
    have done : attachState .overall child c n =
        .ok () (attachOverall c n (n.unfolding child)) := by
      rw [attachState_eq_ok .overall found there, unfolding_eq]
      rfl
    obtain ⟨episodes, same, _⟩ := attachOverall_frame (c := c) (n.unfolding child) n
    have there' : (attachOverall c n (n.unfolding child)).state c = .ok sc := by
      rw [same]
      exact there
    refine Attempt.bind_eq_ok_iff.mpr ⟨(), _, done, ?_⟩
    rw [ih there' fun other member => ?_]
    · rw [funext (unfolding_attachOverall _ n)]
      simp only [attachOverall, List.flatMap_cons, List.foldl_append]
    · obtain ⟨f, found⟩ := known other member
      exact exists_episode_attachOverall _ found

/-- The constraint is attached to what is directly inside, to one episode after the other. -/
theorem attachState_during_eq (whole : n.WellFormed) (found : n.episode id = .ok e)
    (there : n.state c = .ok sc) :
    attachState .during id c n =
      Attempt.each (attachState .overall · c) e.composition.episodes
        (n.modifyEpisode id (withState .during c)) := by
  have same (x : EpisodeId) :
      (n.modifyEpisode id (withState .during c)).unfolding x = n.unfolding x :=
    unfolding_modifyEpisode fun _ => composition_withState
  rw [attachState_eq_ok .during found there, each_attachState (n := n.modifyEpisode ..) there]
  · rw [funext same, unfolding_eq, whole.internalEpisodes_eq found, List.tail_cons]
  · intro child inside
    obtain ⟨f, found'⟩ := whole.exists_child found inside
    exact exists_episode_modifyEpisode _ found'

end Edit

namespace Network

/-- A state constraint spreads over everything inside an episode. Let a network have come about
in any way. If the episode and the constraint are there, the constraint can be attached to the
episode throughout: the episode and those below it get it at the start, at the end and between
them. It can be attached during the episode: then the episode itself gets it between start and
end only, and those below get it as before. Nothing else changes either time, the constraint
is listed with those that were listed before, and it is an overall constraint of all episodes
below. If the episode or the constraint is not there, attaching it in whatever way is refused
and changes nothing. -/
theorem state_constraint_spreads_below
    (reachable : n.Reachable ∨ ∃ p : Program, p.Reachable .free ∧ p.network = n)
    (id : EpisodeId) (c : StateConstraintId) :
    (∀ e sc, n.episode id = .ok e → n.state c = .ok sc →
      ∃ old, n.allStates id = .ok old ∧
        (∃ m, Edit.attachState .overall id c n = .ok () m ∧
          n.Spread id c (fun e =>
            { e with
              atStart := e.atStart.insert c
              atFinish := e.atFinish.insert c
              during := e.during.insert c }) m ∧
          m.allStates id = .ok (old.insert c) ∧
          ∀ x, n.Reaches id x → ∃ f, m.episode x = .ok f ∧ c ∈ f.overall.toList) ∧
        ∃ m, Edit.attachState .during id c n = .ok () m ∧
          n.Spread id c (fun e => { e with during := e.during.insert c }) m ∧
          m.allStates id = .ok (old.insert c) ∧
          ∀ x, n.Below id x → ∃ f, m.episode x = .ok f ∧ c ∈ f.overall.toList) ∧
    ∀ span fault,
      (n.state c = .error fault → Edit.attachState span id c n = .error fault n) ∧
      ∀ sc, n.state c = .ok sc → n.episode id = .error fault →
        Edit.attachState span id c n = .error fault n := by
  have whole : n.WellFormed := (whole_of_reachable reachable).1
  refine ⟨fun e sc found there => ?_, fun span fault =>
    ⟨Edit.attachState_of_unknown_state span, fun sc => Edit.attachState_of_unknown_episode span⟩⟩
  have throughout : n.Spread id c (Edit.withState .overall c) _ :=
    whole.spread_attachOverall id c (Edit.withState .overall c)
  have between : n.Spread id c (Edit.withState .during c) _ :=
    whole.spread_attachOverall id c (Edit.withState .during c)
  obtain ⟨old, listed, added⟩ := throughout.allStates whole found
  obtain ⟨old', listed', added'⟩ := between.allStates whole found
  obtain rfl := Except.ok.inj (listed.symm.trans listed')
  have reached {span : Edit.Span} {m : Network} (spread : n.Spread id c (Edit.withState span c) m)
      (x : EpisodeId) (below : n.Below id x) : ∃ f, m.episode x = .ok f ∧ c ∈ f.overall.toList := by
    obtain ⟨f, found'⟩ := exists_of_mem_unfolding found
      (whole.reaches_iff.mp (reaches_iff_eq_or_below.mpr (.inr below)))
    exact spread.overall_of_below below found'
  refine ⟨old, listed, ⟨_, Edit.attachState_eq_ok .overall found there, throughout, added,
    fun x inside => ?_⟩, _, Edit.attachState_eq_ok .during found there, between, added',
    reached between⟩
  rcases reaches_iff_eq_or_below.mp inside with rfl | below
  · rw [throughout.here, found]
    exact ⟨_, rfl, Episode.mem_overall_iff.mpr (by simp [Edit.withState])⟩
  · exact reached throughout x below

/-! ## An episode that is shared -/

/-- Two episodes in a sequence, with the first one once more beside them, and another episode. -/
@[irreducible] def shared : Network :=
  (Network.empty .zero).afterCalls [⟨_, .addEpisode {}⟩, ⟨_, .addEpisode {}⟩,
    ⟨_, .sequence [⟨0⟩, ⟨1⟩] {}⟩, ⟨_, .parallel [⟨2⟩, ⟨0⟩] {}⟩, ⟨_, .addEpisode {}⟩,
    ⟨_, .addAssignmentConstraint [] []⟩]

theorem reachable_shared : shared.Reachable := by
  unfold shared
  exact (Reachable.empty _).afterCalls _

/-- The first episode is met twice and has the constraint all the time then, the other one is
as it was. An episode that is not there gets no constraint. -/
theorem state_constraint_spreads_below_shared :
    shared.Reachable ∧ (shared.unfolding ⟨3⟩).count ⟨0⟩ = 2 ∧
      (∃ m all f, Edit.attachState .during ⟨3⟩ ⟨0⟩ shared = .ok () m ∧
        m.allStates ⟨3⟩ = .ok all ∧ ⟨0⟩ ∈ all.toList ∧
        m.episode ⟨0⟩ = .ok f ∧ ⟨0⟩ ∈ f.overall.toList ∧
        m.episode ⟨4⟩ = shared.episode ⟨4⟩) ∧
      ∃ fault, Edit.attachState .overall ⟨5⟩ ⟨0⟩ shared = .error fault shared := by
  have reachable : shared.Reachable ∨
      ∃ p : Program, p.Reachable .free ∧ p.network = shared := .inl reachable_shared
  have whole : shared.WellFormed := reachable_shared.wellFormed
  have made : (shared.episode ⟨3⟩).toOption.isSome = true ∧
      (shared.state ⟨0⟩).toOption.isSome = true := by decide +kernel
  obtain ⟨e, found⟩ := Option.isSome_iff_exists.mp made.1
  obtain ⟨sc, there⟩ := Option.isSome_iff_exists.mp made.2
  have found := toOption_eq_some_iff.mp found
  have there := toOption_eq_some_iff.mp there
  obtain ⟨succeeds, _⟩ := state_constraint_spreads_below reachable ⟨3⟩ ⟨0⟩
  obtain ⟨old, _, _, m, done, spread, listed, overall⟩ := succeeds e sc found there
  obtain ⟨f, changed, has⟩ := overall ⟨0⟩ (whole.below_iff.mpr (by decide +kernel))
  have apart : ¬ shared.Below ⟨3⟩ ⟨4⟩ := mt whole.below_iff.mp (by decide +kernel)
  obtain ⟨_, fails⟩ := state_constraint_spreads_below reachable ⟨5⟩ ⟨0⟩
  have missing : (shared.episode ⟨5⟩).toOption = none := by decide +kernel
  refine ⟨reachable_shared, by decide +kernel, ⟨m, _, f, done, listed,
    OrdSet.mem_insert_iff.mpr (.inl rfl), changed, has, spread.others ⟨4⟩ (by decide) apart⟩, ?_⟩
  cases unknown : shared.episode ⟨5⟩ with
  | ok e => rw [unknown] at missing; cases missing
  | error fault => exact ⟨fault, (fails .overall fault).2 sc there unknown⟩

end Network

end PlanNetwork
