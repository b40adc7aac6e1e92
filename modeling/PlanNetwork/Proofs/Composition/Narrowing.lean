/-
# Composition narrows

A composition makes its own events and links and narrows what was there. It
gives another guard to one old element at most: the event that is to be the end
of a sequence with boundary events, or of a branching where some of the branches
end the execution and some do not. The end of such a branching then exists where
the choice takes none of the values that end the execution, whatever its guard
was before.
-/

import PlanNetwork.Proofs.Composition.Steps
import PlanNetwork.Proofs.Network.Calls
import PlanNetwork.Proofs.Network.Tightening

namespace PlanNetwork

open Network

variable {narrowed replaced : Guarded → Prop} {n m : Network}

namespace Network

/-- Whether an episode is there and ends the execution. -/
def isTerminal (n : Network) (id : EpisodeId) : Bool :=
  (n.episodes[id.index]?).any (·.terminal)

theorem isTerminal_eq {id : EpisodeId} {e : Episode} (found : n.episode id = .ok e) :
    n.isTerminal id = e.terminal := by
  rw [isTerminal, lookup_eq_ok_iff.mp found, Option.any_some]

theorem SameEpisodes.isTerminal (same : SameEpisodes n m) (id : EpisodeId) :
    m.isTerminal id = n.isTerminal id := by
  have bare (n : Network) :
      n.isTerminal id = ((n.episodes.map Episode.bare)[id.index]?).any (·.terminal) := by
    rw [Network.isTerminal, Array.getElem?_map]
    cases n.episodes[id.index]? <;> rfl
  rw [bare, bare n, show _ = _ from same]

/-- Some episodes end the execution and some do not. -/
def Divided (n : Network) (ids : List EpisodeId) : Prop :=
  (∃ id ∈ ids, n.isTerminal id = true) ∧ ∃ id ∈ ids, n.isTerminal id = false

instance (n : Network) (ids : List EpisodeId) : Decidable (n.Divided ids) :=
  inferInstanceAs (Decidable (_ ∧ _))

end Network

namespace Edit

theorem tightens_propagate {id : EpisodeId} {s : Support}
    (inside : ∀ element ∈ n.parts id, narrowed element ∨ replaced element) :
    Tightens narrowed replaced (propagate id s) n := by
  refine tightens_atomically fun k same => tightens_read fun _ _ => tightens_read fun parts listed => ?_
  obtain rfl := Except.ok.inj listed
  rw [parts_of_bare same.bare]
  exact tightens_each fun element member _ => tightens_narrow (inside element member)

theorem tightens_addComposite (options : CompositionOptions) (start finish : EventId)
    (composition : Composition) (constraints : List TemporalId) (terminal : Bool) :
    Tightens narrowed replaced
      (addComposite options start finish composition constraints terminal) n :=
  (tightens_allocateAs ..).bind fun _ _ _ => tightens_addDraft ..

theorem sameEpisodes_eventOrNew {given : Option EventId} {id : EventId}
    (done : eventOrNew given n = .ok id m) : SameEpisodes n m := by
  cases given with
  | some id' =>
    obtain ⟨_, rfl⟩ := Attempt.pure_eq_ok_iff.mp done
    exact .of_eq rfl
  | none =>
    obtain ⟨_, _, counted, pushed⟩ := Attempt.bind_eq_ok_iff.mp done
    obtain ⟨_, rfl⟩ := allocate_eq_ok_iff.mp counted
    obtain ⟨_, rfl⟩ := pushEvent_eq_ok_iff.mp pushed
    exact .of_eq rfl

theorem sameEpisodes_linkUnder {start finish : EventId} {bounds : Bounds} {s : Support}
    {id : TemporalId} (done : linkUnder start finish bounds s n = .ok id m) : SameEpisodes n m := by
  obtain ⟨_, _, rfl⟩ := linkUnder_eq_ok_iff.mp done
  exact .of_eq rfl

theorem sameEpisodes_link {start finish : EventId} {bounds : Bounds} {id : TemporalId}
    (done : link start finish bounds n = .ok id m) : SameEpisodes n m := by
  obtain ⟨_, _, linked⟩ := Attempt.read_bind_eq_ok_iff.mp done
  exact sameEpisodes_linkUnder linked

theorem sameEpisodes_changeGuard {element : Guarded} {change : Guard → Except Clash Guard} {u : Unit}
    (done : changeGuard element change n = .ok u m) : SameEpisodes n m := by
  obtain ⟨_, _, _, _, rfl⟩ := changeGuard_eq_ok_iff.mp done
  exact .of_bare (bare_setGuard.trans bare_note)

theorem sameEpisodes_propagate {id : EpisodeId} {s : Support} {u : Unit}
    (done : propagate id s n = .ok u m) : SameEpisodes n m :=
  .of_bare (narrowed_propagate done).bare

/-! ## Sequences -/

theorem tightens_openSequence (options : CompositionOptions) (first last : EventId) :
    Tightens narrowed replaced (openSequence options first last) n := by
  unfold openSequence
  cases options.mode.getD .shared with
  | shared => exact tightens_pure _
  | boundary =>
    exact (tightens_eventOrNew _).bind fun _ _ _ => (tightens_eventOrNew _).bind fun _ _ _ =>
      (tightens_link ..).bind fun _ _ _ => tightens_pure _

theorem tightens_follow {gap : Number} {first second : EpisodeId}
    (inside : ∀ element ∈ n.parts second, narrowed element ∨ replaced element) :
    Tightens narrowed replaced (follow gap first second) n := by
  refine tightens_read fun before _ => ?_
  split
  · exact tightens_throw _
  · exact tightens_read fun support _ => (tightens_propagate inside).bind fun _ _ _ =>
      tightens_read fun _ _ => tightens_read fun _ _ => tightens_linkUnder ..

theorem sameEpisodes_follow {gap : Number} {first second : EpisodeId} {c : TemporalId}
    (done : follow gap first second n = .ok c m) : SameEpisodes n m := by
  obtain ⟨_, _, k, _, _, _, _, _, propagated, _, _, linked⟩ := follow_eq_ok done
  exact (sameEpisodes_propagate propagated).trans (sameEpisodes_linkUnder linked)

theorem tightens_followAll {gap : Number} {ids : List EpisodeId}
    (inside : ∀ id ∈ ids.tail, ∀ element ∈ n.parts id, narrowed element ∨ replaced element) :
    Tightens narrowed replaced (followAll gap ids) n := by
  induction ids generalizing n with
  | nil => exact tightens_pure []
  | cons first rest ih =>
    cases rest with
    | nil => exact tightens_pure []
    | cons second rest =>
      obtain ⟨here, later⟩ := List.forall_mem_cons.mp inside
      refine (tightens_follow here).bind fun _ k followed => ?_
      refine (ih fun id member => ?_).bind fun _ _ _ => tightens_pure _
      rw [(sameEpisodes_follow followed).parts]
      exact later id member

theorem tightens_closeSequence {options : CompositionOptions} {last finish : EventId}
    (allowed : options.mode.getD .shared = .boundary → replaced (.event finish)) :
    Tightens narrowed replaced (closeSequence options last finish) n := by
  unfold closeSequence
  cases mode : options.mode.getD .shared with
  | shared => exact tightens_pure []
  | boundary =>
    exact tightens_read fun _ _ => (tightens_setSupport (allowed mode)).bind fun _ _ _ =>
      (tightens_linkUnder ..).bind fun _ _ _ => tightens_pure _

theorem sameEpisodes_openSequence {options : CompositionOptions} {first last : EventId}
    {opened : EventId × EventId × List TemporalId}
    (done : openSequence options first last n = .ok opened m) : SameEpisodes n m := by
  rcases openSequence_eq_ok done with ⟨_, rfl, _⟩ | ⟨_, _, _, _, _, _, start, finish, linked, _⟩
  · exact .of_eq rfl
  · exact ((sameEpisodes_eventOrNew start).trans (sameEpisodes_eventOrNew finish)).trans
      (sameEpisodes_link linked)

/-- The end of a sequence with boundary events is the one that was given, or it
is new. -/
theorem finish_of_openSequence {options : CompositionOptions} {first last : EventId}
    {opened : EventId × EventId × List TemporalId}
    (done : openSequence options first last n = .ok opened m)
    (mode : options.mode.getD .shared = .boundary) :
    options.finish = some opened.2.1 ∨ ¬ n.Has (.event opened.2.1) := by
  obtain ⟨_, _, _, k₁, _, start, finish, _, rfl⟩ := openSequence_eq_ok_of_boundary done mode
  have step : Tightened (fun _ => False) (fun _ => False) n k₁ := (tightens_eventOrNew _).of_ok start
  rcases eventOrNew_eq_ok finish with ⟨given, _⟩ | ⟨_, new⟩
  · exact .inl given
  · exact .inr (new ∘ step.has)

/-- A sequence narrows the parts of its episodes but the first one, and it gives
another guard to its end if that is a boundary event. -/
theorem tightened_sequence {ids : List EpisodeId} {options : CompositionOptions} {id : EpisodeId}
    (done : sequence ids options n = .ok id m)
    (inside : ∀ id ∈ ids.tail, ∀ element ∈ n.parts id, narrowed element ∨ replaced element)
    (boundary : ∀ finish, options.mode.getD .shared = .boundary → options.finish = some finish →
      replaced (.event finish)) : Tightened narrowed replaced n m := by
  obtain ⟨_, _, n', m', _, _, _, _, begins, ends, _, _, opened, k₁, _, k₂, _, k₃, opening, following,
    closing, made⟩ := sequence_eq_ok done
  have parts := ((SameEpisodes.of_bare begins.bare).trans (sameEpisodes_openSequence opening)).parts
  let allowed (element : Guarded) := n.Has element → replaced element
  have opens : Tightened narrowed allowed n' k₁ := (tightens_openSequence ..).of_ok opening
  have follows : Tightened narrowed allowed k₁ k₂ := by
    refine (tightens_followAll fun id member element part => ?_).of_ok following
    rw [parts] at part
    exact (inside id member element part).imp_right fun given _ => given
  have closes : Tightened narrowed allowed k₂ k₃ := by
    refine (tightens_closeSequence fun mode there => ?_).of_ok closing
    rcases finish_of_openSequence opening mode with given | new
    · exact boundary _ mode given
    · exact absurd (Grows.has_of_bare begins.bare there) new
  have composite : Tightened narrowed allowed k₃ m' := (tightens_addComposite ..).of_ok made
  exact .of_new (.trans (.of_same begins) (opens.trans (follows.trans (closes.trans
    (composite.trans (.of_same ends))))))

/-! ## Parallel compositions -/

theorem tightens_joinBranch {start finish : EventId} {id : EpisodeId}
    (allowed : narrowed (.event finish) ∨ replaced (.event finish)) :
    Tightens narrowed replaced (joinBranch start finish id) n :=
  tightens_read fun _ _ => (tightens_link ..).bind fun _ _ _ => (tightens_link ..).bind fun _ _ _ =>
    tightens_read fun _ _ => (tightens_narrow allowed).bind fun _ _ _ => tightens_pure _

theorem sameEpisodes_joinBranch {start finish : EventId} {id : EpisodeId}
    {links : TemporalId × TemporalId} (done : joinBranch start finish id n = .ok links m) :
    SameEpisodes n m := by
  obtain ⟨_, _, _, _, _, opened, closed, _, narrows⟩ := joinBranch_eq_ok done
  exact ((sameEpisodes_link opened).trans (sameEpisodes_link closed)).trans
    (sameEpisodes_changeGuard narrows)

theorem tightens_joinBranches {start finish : EventId} {ids : List EpisodeId}
    (allowed : narrowed (.event finish) ∨ replaced (.event finish)) :
    Tightens narrowed replaced (joinBranches start finish ids) n := by
  induction ids generalizing n with
  | nil => exact tightens_pure []
  | cons id rest ih =>
    exact (tightens_joinBranch allowed).bind fun _ _ _ => ih.bind fun _ _ _ => tightens_pure _

/-- The closing links of a parallel composition are new. -/
theorem new_of_joinBranches {start finish : EventId} {ids : List EpisodeId}
    {links : List (TemporalId × TemporalId)}
    (done : joinBranches start finish ids n = .ok links m) :
    ∀ link ∈ links, ¬ n.Has (.temporal link.2) := by
  induction ids generalizing n links with
  | nil =>
    obtain ⟨rfl, _⟩ := Attempt.pure_eq_ok_iff.mp done
    nofun
  | cons id rest ih =>
    obtain ⟨l, k, others, joined, remaining, rfl⟩ := joinBranches_cons_eq_ok done
    have step : Tightened (fun _ => True) (fun _ => False) n k :=
      (tightens_joinBranch (.inl trivial)).of_ok joined
    refine List.forall_mem_cons.mpr ⟨?_, fun link member there => ih remaining link member (step.has there)⟩
    obtain ⟨e, k₁, _, _, _, opened, closed, _, _⟩ := joinBranch_eq_ok joined
    have opening : Tightened (fun _ => True) (fun _ => False) n k₁ := (tightens_link ..).of_ok opened
    obtain ⟨_, _, _, new, _⟩ := link_eq_ok_iff.mp closed
    rw [new]
    exact not_has_temporal rfl ∘ opening.has

/-- When all episodes have been joined, nothing but the closing links gets another guard. -/
theorem tightened_closeLinks {links : List (TemporalId × TemporalId)} {joint : Support} {u : Unit}
    (done : Attempt.each (fun link => setSupport (.temporal link.2) joint) links n = .ok u m) :
    Tightened (fun _ => False) (fun element => ∃ l ∈ links, Guarded.temporal l.2 = element) n m :=
  (tightens_each fun l member _ => tightens_setSupport ⟨l, member, rfl⟩).of_ok done

theorem tightened_parallel {ids : List EpisodeId} {options : CompositionOptions} {id : EpisodeId}
    (done : parallel ids options n = .ok id m)
    (given : ∀ finish, options.finish = some finish →
      narrowed (.event finish) ∨ replaced (.event finish)) : Tightened narrowed replaced n m := by
  obtain ⟨_, n', m', begins, ends, start, k₁, finish, k₂, links, k₃, joint, k₄, first, second, joined,
    _, closed, made⟩ := parallel_eq_ok done
  let allowed (element : Guarded) := n.Has element → replaced element
  have starts : Tightened narrowed allowed n k₁ :=
    .trans (.of_same begins) ((tightens_eventOrNew _).of_ok first)
  have ready : Tightened narrowed allowed n k₂ :=
    starts.trans ((tightens_eventOrNew _).of_ok second)
  have joins : Tightened narrowed allowed k₂ k₃ := by
    refine (tightens_joinBranches ?_).of_ok joined
    rcases eventOrNew_eq_ok second with ⟨same, _⟩ | ⟨_, new⟩
    · exact (given finish same).imp_right fun replaces _ => replaces
    · exact .inr fun there => absurd (starts.has there) new
  have closes : Tightened narrowed allowed k₃ k₄ :=
    (tightens_each fun link member _ => tightens_setSupport fun there =>
      absurd (ready.has there) (new_of_joinBranches joined link member)).of_ok closed
  have composite : Tightened narrowed allowed k₄ m' := (tightens_addComposite ..).of_ok made
  exact .of_new (ready.trans (joins.trans (closes.trans (composite.trans (.of_same ends)))))

/-! ## Branchings -/

theorem tightens_linkWith (start finish : EventId) (literal : Literal) :
    Tightens narrowed replaced (linkWith start finish literal) n := by
  refine ⟨fun {id m} done => ?_⟩
  obtain ⟨k, linked, added⟩ := linkWith_eq_ok done
  let allowed (element : Guarded) := n.Has element → replaced element
  have links : Tightened narrowed allowed n k := (tightens_link ..).of_ok linked
  refine .of_new (links.trans ((tightens_addLiteral (.inr fun there => ?_)).of_ok added))
  obtain ⟨_, _, _, rfl, _⟩ := link_eq_ok_iff.mp linked
  exact absurd there (not_has_temporal rfl)

theorem tightens_addBranch {choice finish : EventId} {subject : ChoiceVariable} {value : String}
    {id : EpisodeId} (inside : ∀ element ∈ n.parts id, narrowed element ∨ replaced element) :
    Tightens narrowed replaced (addBranch choice finish subject value id) n := by
  refine (tightens_propagate inside).bind fun _ _ _ => tightens_read fun _ _ => ?_
  refine (tightens_linkWith ..).bind fun _ _ _ => ?_
  split
  · exact tightens_pure _
  · exact (tightens_linkWith ..).bind fun _ _ _ => tightens_pure _

/-- Once the episode has been narrowed, adding a branch leaves old guards alone. -/
theorem exists_propagate_of_addBranch {choice finish : EventId} {subject : ChoiceVariable}
    {value : String} {id : EpisodeId} {branch : Branch}
    (done : addBranch choice finish subject value id n = .ok branch m) :
    ∃ k, propagate id (.ofLiteral (.is subject value)) n = .ok () k ∧
      Tightened (fun _ => False) (fun _ => False) k m := by
  obtain ⟨k, e, opening, k₁, propagated, _, opened, rest⟩ := addBranch_eq_ok done
  have opens : Tightened (fun _ => False) (fun _ => False) k k₁ :=
    (tightens_linkWith ..).of_ok opened
  refine ⟨k, propagated, ?_⟩
  rcases rest with ⟨_, rfl, _⟩ | ⟨_, _, closed, _⟩
  · exact opens
  · exact opens.trans ((tightens_linkWith ..).of_ok closed)

theorem sameEpisodes_linkWith {start finish : EventId} {literal : Literal} {id : TemporalId}
    (done : linkWith start finish literal n = .ok id m) : SameEpisodes n m := by
  obtain ⟨k, linked, added⟩ := linkWith_eq_ok done
  exact (sameEpisodes_link linked).trans (sameEpisodes_changeGuard added)

theorem sameEpisodes_addBranch {choice finish : EventId} {subject : ChoiceVariable} {value : String}
    {id : EpisodeId} {branch : Branch}
    (done : addBranch choice finish subject value id n = .ok branch m) : SameEpisodes n m := by
  obtain ⟨k, _, _, k₁, propagated, _, opened, rest⟩ := addBranch_eq_ok done
  have opening : SameEpisodes n k₁ :=
    (sameEpisodes_propagate propagated).trans (sameEpisodes_linkWith opened)
  rcases rest with ⟨_, rfl, _⟩ | ⟨_, _, closed, _⟩
  · exact opening
  · exact opening.trans (sameEpisodes_linkWith closed)

theorem tightens_addBranches {choice finish : EventId} {subject : ChoiceVariable}
    {entries : List (String × EpisodeId)}
    (inside : ∀ entry ∈ entries, ∀ element ∈ n.parts entry.2, narrowed element ∨ replaced element) :
    Tightens narrowed replaced (addBranches choice finish subject entries) n := by
  induction entries generalizing n with
  | nil => exact tightens_pure []
  | cons entry rest ih =>
    obtain ⟨here, later⟩ := List.forall_mem_cons.mp inside
    refine (tightens_addBranch here).bind fun _ k added => ?_
    refine (ih fun entry member => ?_).bind fun _ _ _ => tightens_pure _
    rw [(sameEpisodes_addBranch added).parts]
    exact later entry member

/-- What becomes of a branch is settled by its value and its episode. -/
theorem flags_of_addBranches {choice finish : EventId} {subject : ChoiceVariable}
    {entries : List (String × EpisodeId)} {branches : List Branch}
    (done : addBranches choice finish subject entries n = .ok branches m) :
    branches.map (fun b => (b.value, b.terminal)) =
      entries.map fun entry => (entry.1, n.isTerminal entry.2) := by
  induction entries generalizing n branches with
  | nil =>
    obtain ⟨rfl, _⟩ := Attempt.pure_eq_ok_iff.mp done
    rfl
  | cons entry rest ih =>
    obtain ⟨branch, k, others, added, remaining, rfl⟩ := addBranches_cons_eq_ok done
    rw [List.map_cons, List.map_cons, ih remaining]
    simp only [(sameEpisodes_addBranch added).isTerminal]
    obtain ⟨k₁, e, _, _, propagated, found, _, rest⟩ := addBranch_eq_ok added
    have flag : n.isTerminal entry.2 = e.terminal := by
      rw [← (sameEpisodes_propagate propagated).isTerminal, isTerminal_eq found]
    rcases rest with ⟨terminal, _, rfl⟩ | ⟨terminal, _, _, rfl⟩ <;> rw [flag, terminal]

theorem flags_of_sameEpisodes {choice finish : EventId} {subject : ChoiceVariable}
    {entries : List (String × EpisodeId)} {branches : List Branch} (episodes : SameEpisodes n k)
    (done : addBranches choice finish subject entries k = .ok branches m) :
    branches.map (fun b => (b.value, b.terminal)) =
      entries.map fun entry => (entry.1, n.isTerminal entry.2) := by
  simpa only [episodes.isTerminal] using flags_of_addBranches done

/-- As many branches end the execution as episodes do. -/
theorem length_filter_terminal {subject : ChoiceVariable} {ids : List EpisodeId}
    {branches : List Branch} (same : subject.arity = ids.length)
    (flags : branches.map (fun b => (b.value, b.terminal)) =
      (subject.domain.zip ids).map fun entry => (entry.1, n.isTerminal entry.2)) :
    (branches.filter (·.terminal)).length = (ids.filter n.isTerminal).length := by
  have terminals : branches.map (·.terminal) = ids.map n.isTerminal :=
    calc branches.map (·.terminal)
        = (branches.map fun b => (b.value, b.terminal)).map Prod.snd := by
          rw [List.map_map]
          rfl
      _ = ((subject.domain.zip ids).map Prod.snd).map n.isTerminal := by
          rw [flags, List.map_map, List.map_map]
          rfl
      _ = ids.map n.isTerminal := by rw [List.map_snd_zip (Nat.le_of_eq same.symm)]
  simpa [List.filter_map] using congrArg (fun flags => (flags.filter id).length) terminals

/-- The execution goes on after some branch if it does after some episode. -/
theorem exists_going_iff {subject : ChoiceVariable} {ids : List EpisodeId}
    {branches : List Branch} (same : subject.arity = ids.length)
    (flags : branches.map (fun b => (b.value, b.terminal)) =
      (subject.domain.zip ids).map fun entry => (entry.1, n.isTerminal entry.2)) :
    (branches.filter (·.terminal)).length ≠ subject.arity ↔
      ∃ id ∈ ids, n.isTerminal id = false := by
  rw [length_filter_terminal same flags, same, ne_eq, List.length_filter_eq_length_iff]
  simp

/-- The branches are divided if their episodes are. -/
theorem divided_iff {subject : ChoiceVariable} {ids : List EpisodeId} {branches : List Branch}
    (same : subject.arity = ids.length)
    (flags : branches.map (fun b => (b.value, b.terminal)) =
      (subject.domain.zip ids).map fun entry => (entry.1, n.isTerminal entry.2)) :
    Divided subject branches ↔ n.Divided ids := by
  have some : branches.filter (·.terminal) ≠ [] ↔ ∃ id ∈ ids, n.isTerminal id = true := by
    rw [← List.length_pos_iff, length_filter_terminal same flags, List.length_filter_pos_iff]
  rw [Divided, Network.Divided, exists_going_iff same flags, some, and_comm]

/-- When the branches are there, nothing but the end gets another guard. -/
theorem tightened_excludeEnded {finish : EventId} {subject : ChoiceVariable}
    {branches : List Branch} {c : Conjunction} {u : Unit}
    (writes : Divided subject branches ∧ setConjunction (.event finish) c n = .ok u m ∨
      ¬ Divided subject branches ∧ m = n) :
    Tightened (fun _ => False) (.event finish = ·) n m := by
  rcases writes with ⟨_, written⟩ | ⟨_, rfl⟩
  · exact (tightens_setConjunction rfl).of_ok written
  · exact .refl _

theorem tightened_branch {choice : EventId} {ids : List EpisodeId} {options : CompositionOptions}
    {id : EpisodeId} (done : branch choice ids options n = .ok id m)
    (inside : ∀ id ∈ ids, ∀ element ∈ n.parts id, narrowed element ∨ replaced element)
    (divided : ∀ finish, n.Divided ids → options.finish = some finish → replaced (.event finish)) :
    Tightened narrowed replaced n m := by
  obtain ⟨data, _, same, n', m', begins, ends, finish, k₁, branches, k₂, k₃, first, added, writes,
    made⟩ := branch_eq_ok done
  have episodes : SameEpisodes n k₁ :=
    (SameEpisodes.of_bare begins.bare).trans (sameEpisodes_eventOrNew first)
  let allowed (element : Guarded) := n.Has element → replaced element
  have starts : Tightened narrowed allowed n' k₁ := (tightens_eventOrNew _).of_ok first
  have branching : Tightened narrowed allowed k₁ k₂ := by
    refine (tightens_addBranches fun entry member element part => ?_).of_ok added
    rw [episodes.parts] at part
    exact (inside entry.2 (List.of_mem_zip member).2 element part).imp_right fun given _ => given
  have excludes : Tightened narrowed allowed k₂ k₃ := by
    rcases writes with ⟨some, written⟩ | ⟨_, rfl⟩
    · refine (tightens_setConjunction fun there => ?_).of_ok written
      have flags := flags_of_sameEpisodes episodes added
      rcases eventOrNew_eq_ok first with ⟨given, _⟩ | ⟨_, new⟩
      · exact divided finish ((divided_iff same flags).mp some) given
      · exact absurd (Grows.has_of_bare begins.bare there) new
    · exact .refl _
  have composite : Tightened narrowed allowed k₃ m' := (tightens_addComposite ..).of_ok made
  exact .of_new (.trans (.of_same begins) (starts.trans (branching.trans (excludes.trans
    (composite.trans (.of_same ends))))))

theorem support_of_setConjunction {element : Guarded} {c : Conjunction} {u : Unit}
    (done : setConjunction element c n = .ok u m) :
    m.support element = .ok (.ofConjunction c) := by
  obtain ⟨_, _, found, changed, rfl⟩ := changeGuard_eq_ok_iff.mp done
  cases changed
  exact support_eq_ok_iff.mpr (guard_setGuard_self (guard_note.trans found))

/-- The values of a choice whose episodes end the execution. -/
def endedValues (n : Network) (subject : ChoiceVariable) (ids : List EpisodeId) : List String :=
  ((subject.domain.zip ids).filter (n.isTerminal ·.2)).map (·.1)

/-- The literals that rule out the branches that end the execution are those that rule
out the values of the episodes that do. -/
theorem map_isNot_of_flags {subject : ChoiceVariable} {ids : List EpisodeId}
    {branches : List Branch} (flags : branches.map (fun b => (b.value, b.terminal)) =
      (subject.domain.zip ids).map fun entry => (entry.1, n.isTerminal entry.2)) :
    (branches.filter (·.terminal)).map (Literal.isNot subject ·.value) =
      (endedValues n subject ids).map (Literal.isNot subject ·) := by
  simpa [endedValues, List.filter_map, Function.comp_def] using congrArg
    (fun flags => (flags.filter (·.2)).map fun flag => Literal.isNot subject flag.1) flags

/-- Where some episodes of a branching end the execution and some do not, its end
exists where the choice takes none of the values of those that do. -/
theorem support_finish_of_branch {choice finish : EventId} {ids : List EpisodeId}
    {options : CompositionOptions} {id : EpisodeId} (done : branch choice ids options n = .ok id m)
    (divided : n.Divided ids) (given : options.finish = some finish) :
    ∃ data, n.choice choice = .ok data ∧ m.support (.event finish) = .ok (.ofConjunction
      (.ofList ((endedValues n data.subject ids).map (.isNot data.subject ·)))) := by
  obtain ⟨data, chosen, same, n', m', begins, ends, finish', k₁, branches, k₂, k₃, first, added,
    writes, made⟩ := branch_eq_ok done
  have episodes : SameEpisodes n k₁ :=
    (SameEpisodes.of_bare begins.bare).trans (sameEpisodes_eventOrNew first)
  have flags := flags_of_sameEpisodes episodes added
  obtain rfl : finish' = finish := by
    rcases eventOrNew_eq_ok first with ⟨same, _⟩ | ⟨none, _⟩
    · exact Option.some.inj (same.symm.trans given)
    · rw [given] at none
      cases none
  refine ⟨data, chosen, ?_⟩
  rcases writes with ⟨_, written⟩ | ⟨whole, _⟩
  · have composite : Tightened (fun _ => False) (fun _ => False) k₃ m :=
      .trans ((tightens_addComposite ..).of_ok made) (.of_same ends)
    rw [map_isNot_of_flags flags] at written
    exact composite.support not_false not_false (support_of_setConjunction written)
  · exact absurd ((divided_iff same flags).mpr divided) whole

end Edit

/-- The calls that make one episode of several. -/
inductive Composing where
  /-- One after the other. -/
  | sequence (ids : List EpisodeId) (options : CompositionOptions)
  /-- Side by side. -/
  | parallel (ids : List EpisodeId) (options : CompositionOptions)
  /-- One of them, by the value of a choice. -/
  | branch (choice : EventId) (ids : List EpisodeId) (options : CompositionOptions)

namespace Composing

/-- The call of the network. -/
def call : Composing → NetworkCall EpisodeId
  | sequence ids options => .sequence ids options
  | parallel ids options => .parallel ids options
  | branch choice ids options => .branch choice ids options

/-- Whether the event gets another guard as the end of what is composed. -/
def Replaces (n : Network) : Composing → EventId → Prop
  | sequence _ options, finish =>
    options.mode.getD .shared = .boundary ∧ options.finish = some finish
  | parallel _ _, _ => False
  | branch _ ids options, finish => n.Divided ids ∧ options.finish = some finish

/-- What a composition makes of the guards of old elements. -/
structure Narrows (composing : Composing) (n m : Network) : Prop where
  /-- Whatever meets a guard afterwards met it before, if it is not replaced. -/
  kept : ∀ {element before}, n.support element = .ok before →
    (∀ finish, composing.Replaces n finish → element ≠ .event finish) →
    ∃ after, m.support element = .ok after ∧
      ∀ {V : Vocabulary} (v : Valuation V), after.Holds v → before.Holds v
  /-- The end of a branching that is divided exists afterwards where the choice
  takes none of the values whose episodes end the execution. -/
  divided : ∀ {choice ids options finish}, composing = .branch choice ids options →
    n.Divided ids → options.finish = some finish →
    ∃ data after, n.choice choice = .ok data ∧ m.support (.event finish) = .ok after ∧
      ∀ {V : Vocabulary} (v : Valuation V), after.Holds v ↔
        v.value data.subject.key ∉ Edit.endedValues n data.subject ids

/-- A composition that succeeds only narrows what was there before, apart from an
event that is given as the end of a sequence with boundary events or of a
branching that is divided. -/
theorem only_narrows {composing : Composing} {id : EpisodeId}
    (done : composing.call.run n = .ok id m) : composing.Narrows n m := by
  have step : Tightened (fun _ => True)
      (fun element => ∃ finish, composing.Replaces n finish ∧ element = .event finish) n m := by
    cases composing with
    | sequence ids options =>
      exact Edit.tightened_sequence done (fun _ _ _ _ => .inl trivial)
        fun finish mode given => ⟨finish, ⟨mode, given⟩, rfl⟩
    | parallel ids options => exact Edit.tightened_parallel done fun _ _ => .inl trivial
    | branch choice ids options =>
      exact Edit.tightened_branch done (fun _ _ _ _ => .inl trivial)
        fun finish divided given => ⟨finish, ⟨divided, given⟩, rfl⟩
  refine ⟨fun {element before} found kept => ?_, ?_⟩
  · obtain ⟨after, there, refines⟩ := step.refines
      (fun ⟨finish, replaces, same⟩ => kept finish replaces same) found
    exact ⟨after, there, fun v => refines.entails v⟩
  · rintro choice ids options finish rfl divided given
    obtain ⟨data, chosen, there⟩ := Edit.support_finish_of_branch done divided given
    exact ⟨data, _, chosen, there, fun v => Support.holds_exclusion⟩

/-! ## A branching whose end had a condition of its own -/

/-- A choice that has nothing to do with the branching. -/
def other : ChoiceVariable := ⟨2, "Choice_2", .controllable, ["A", "B"]⟩

/-- Two choices, an event, and two episodes of which the second one ends the
execution. -/
@[irreducible] def unguarded : Network :=
  (Network.empty .zero).afterCalls [
    ⟨_, .addChoice { domain := ["A", "B"], kind := some .controllable }⟩,
    ⟨_, .addChoice { domain := ["A", "B"], kind := some .controllable }⟩,
    ⟨_, .addEventAs (.fresh "Event" 3)⟩, ⟨_, .addEpisode {}⟩, ⟨_, .addEpisode { terminal := true }⟩]

/-- The event exists where the second choice takes its first value. -/
def guarded : Network := (Edit.setSupport (.event ⟨2⟩) (.ofLiteral (.is other "A"))).after unguarded

/-- Branch on the first choice, with the event as the end. -/
def widening : Composing := .branch ⟨0⟩ [⟨0⟩, ⟨1⟩] { finish := some ⟨2⟩ }

theorem reachable_guarded : guarded.Reachable := by
  have before : unguarded.Reachable := by
    unfold unguarded
    exact (Reachable.empty _).afterCalls _
  exact before.call (.setSupport (.event ⟨2⟩) (.ofLiteral (.is other "A")))

theorem only_narrows_widening : guarded.Reachable ∧ ∃ id m, widening.call.run guarded = .ok id m ∧
    guarded.Divided [⟨0⟩, ⟨1⟩] ∧ widening.Narrows guarded m := by
  obtain ⟨id, done⟩ := Attempt.exists_eq_ok_after widening.call.run guarded (by decide +kernel)
  exact ⟨reachable_guarded, id, _, done, by decide +kernel, only_narrows done⟩

/-- The one episode in a sequence with boundary events, the event being the end. -/
def enclosing : Composing := .sequence [⟨0⟩] { finish := some ⟨2⟩, mode := some .boundary }

/-- In both cases the end exists afterwards where it did not before: where the
second choice takes its second value. -/
theorem widens_given_end : guarded.Reachable ∧ ∀ composing ∈ [widening, enclosing],
    ∃ id m before after, composing.call.run guarded = .ok id m ∧
      guarded.support (.event ⟨2⟩) = .ok before ∧ m.support (.event ⟨2⟩) = .ok after ∧
      ∃ (V : Vocabulary) (v : Valuation V), after.Holds v ∧ ¬ before.Holds v := by
  let V : Vocabulary := ⟨fun _ => ["A", "B"], by simp, fun _ => by decide⟩
  let v : Valuation V :=
    ⟨fun key => if key = 2 then "B" else "A", fun key => by split <;> simp [V]⟩
  obtain ⟨_, written⟩ := Attempt.exists_eq_ok_after
    (Edit.setSupport (.event ⟨2⟩) (.ofLiteral (.is other "A"))) unguarded (by decide +kernel)
  have before : ¬ (Support.ofLiteral (.is other "A")).Holds v := by
    rw [Support.holds_ofLiteral]
    exact show ¬ "B" = "A" by decide
  refine ⟨reachable_guarded, List.forall_mem_cons.mpr ⟨?_, List.forall_mem_singleton.mpr ?_⟩⟩
  · obtain ⟨id, done⟩ := Attempt.exists_eq_ok_after widening.call.run guarded (by decide +kernel)
    obtain ⟨data, chosen, there⟩ := Edit.support_finish_of_branch done (by decide +kernel) rfl
    have ended : (guarded.choice ⟨0⟩).toOption.map (fun data => (data.subject.key,
        Edit.endedValues guarded data.subject [⟨0⟩, ⟨1⟩])) = some (1, ["B"]) := by decide +kernel
    rw [chosen] at ended
    obtain ⟨key, ended⟩ := Prod.ext_iff.mp (Option.some.inj ended)
    dsimp only at key ended
    refine ⟨id, _, _, _, done, Edit.support_of_setSupport written, there, V, v, ?_, before⟩
    rw [Support.holds_exclusion, key, ended]
    exact show ¬ "A" ∈ ["B"] by decide
  · obtain ⟨id, done⟩ := Attempt.exists_eq_ok_after enclosing.call.run guarded (by decide +kernel)
    have literals : ((enclosing.call.run.after guarded).support (.event ⟨2⟩)).toOption.map
        (fun s => s.toList.map (·.toList)) = some [[]] := by decide +kernel
    obtain ⟨after, there, literals⟩ := Option.map_eq_some_iff.mp literals
    obtain ⟨c, single, none⟩ := List.map_eq_singleton_iff.mp literals
    have holds : after.Holds v :=
      ⟨c, by rw [single]; exact List.mem_singleton_self c, fun a member => by rw [none] at member; cases member⟩
    exact ⟨id, _, _, after, done, Edit.support_of_setSupport written, toOption_eq_some_iff.mp there,
      V, v, holds, before⟩

end Composing

end PlanNetwork
