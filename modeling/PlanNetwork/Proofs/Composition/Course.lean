/-
# The course that a composition takes

A composition comes down to moves like any other operation. The last one puts the
composite behind the others, and by then its links have been made, each between
events at the ends of the composite or of the episodes that it is composed of. By
then it is also known which of these end the execution: a sequence has asked each
episode that is followed by another, a parallel composition all of them, and a
branching counts those that do.

Whatever the call, and whatever comes of it, the network takes such a course.
-/

import PlanNetwork.Proofs.Composition.Narrowing
import PlanNetwork.Proofs.Network.Course

namespace PlanNetwork

open Network

variable {n m k : Network} {id : EpisodeId} {e : Episode} {c : TemporalId}
  {start finish : EventId} {bounds : Bounds}

namespace Network

/-- The constraint is there, between the events. -/
def Spans (n : Network) (id : TemporalId) (start finish : EventId) : Prop :=
  ∃ c, n.temporal id = .ok c ∧ c.start = start ∧ c.finish = finish

theorem Spans.stays (h : n.Spans c start finish) (stays : Stays n m) : m.Spans c start finish := by
  obtain ⟨_, found, rfl, rfl⟩ := h
  exact stays.temporal found

theorem Spans.inside (h : n.Spans c start finish) (starts : n.Borders e start)
    (finishes : n.Borders e finish) : n.Encloses e c := by
  obtain ⟨c, found, rfl, rfl⟩ := h
  exact ⟨c, found, starts, finishes⟩

theorem borders_start (same : e.start = start) : n.Borders e start := .inl same.symm

theorem borders_finish (same : e.finish = finish) : n.Borders e finish := .inr (.inl same.symm)

section Children

variable {child : EpisodeId} {f : Episode} (inside : child ∈ e.composition.episodes)
  (found : n.episode child = .ok f)

include inside found

theorem borders_child_start : n.Borders e f.start := .inr (.inr ⟨child, inside, f, found, .inl rfl⟩)

theorem borders_child_finish : n.Borders e f.finish :=
  .inr (.inr ⟨child, inside, f, found, .inr rfl⟩)

end Children

theorem flagged (found : n.episode id = .ok e) : n.Flagged id e.terminal := ⟨e, found, rfl⟩

theorem flagged_true_iff : n.Flagged id true ↔ n.isTerminal id = true := by
  refine ⟨fun ⟨e, found, terminal⟩ => (isTerminal_eq found).trans terminal, fun terminal => ?_⟩
  unfold isTerminal at terminal
  cases there : n.episodes[id.index]? with
  | none => simp [there] at terminal
  | some e => exact ⟨e, lookup_eq_ok_iff.mpr there, by simpa [there] using terminal⟩

end Network

namespace Edit

variable {L : Licence} {options : CompositionOptions} {gap : Number}

/-! ## Links -/

theorem spans_of_linkUnder {s : Support}
    (done : linkUnder start finish bounds s n = .ok c m) : m.Spans c start finish := by
  obtain ⟨_, rfl, rfl⟩ := linkUnder_eq_ok_iff.mp done
  exact ⟨_, lookup_push_self rfl, rfl, rfl⟩

theorem spans_of_link (done : link start finish bounds n = .ok c m) : m.Spans c start finish := by
  obtain ⟨_, _, made⟩ := Attempt.read_bind_eq_ok_iff.mp done
  exact spans_of_linkUnder made

theorem courses_linkWith (start finish : EventId) (literal : Literal) :
    Courses L (linkWith start finish literal) n :=
  (courses_link ..).bind fun _ _ _ => (courses_changeGuard ..).bind fun _ _ _ => courses_pure _

theorem spans_of_linkWith {literal : Literal} (done : linkWith start finish literal n = .ok c m) :
    m.Spans c start finish := by
  obtain ⟨k, linked, added⟩ := linkWith_eq_ok done
  exact (spans_of_link linked).stays ((courses_changeGuard (L := .full) ..).of_ok added).stays

theorem courses_propagate (id : EpisodeId) (s : Support) : Courses L (propagate id s) n :=
  courses_atomically
    (Follows.of_error (follows_read fun _ _ => follows_read fun parts _ =>
      follows_each (fun _ _ => follows_narrow _ s) parts))
    fun _ _ => courses_read fun _ _ => courses_read fun _ _ =>
      courses_each (fun _ _ => courses_changeGuard _ _) _

/-- A composite comes in if what is known of it says that it is composed as it should
be. -/
theorem courses_addComposite {composition : Composition} {constraints : List TemporalId}
    {terminal : Bool} (composed : ∀ e : Episode, e.start = start → e.finish = finish →
      e.composition = composition → e.constraints = .ofList constraints → e.terminal = terminal →
      n.Composed e) :
    Courses L (addComposite options start finish composition constraints terminal) n :=
  courses_addDraft (fun _ => rfl) .refl fun _ _ => composed _ rfl rfl rfl rfl rfl

/-! ## Sequences -/

theorem courses_openSequence (options : CompositionOptions) (first last : EventId) :
    Courses L (openSequence options first last) n := by
  unfold openSequence
  split
  · exact courses_pure _
  · exact (courses_eventOrNew _).bind fun _ _ _ => (courses_eventOrNew _).bind fun _ _ _ =>
      (courses_link ..).bind fun _ _ _ => courses_pure _

theorem spans_of_openSequence {first last : EventId} {opened : EventId × EventId × List TemporalId}
    (done : openSequence options first last n = .ok opened m) :
    ∀ c ∈ opened.2.2, m.Spans c opened.1 first := by
  rcases openSequence_eq_ok done with ⟨_, _, rfl⟩ | ⟨_, _, _, _, _, _, _, _, made, rfl⟩
  · nofun
  · exact List.forall_mem_singleton.mpr (spans_of_link made)

theorem courses_follow (gap : Number) (first second : EpisodeId) :
    Courses L (follow gap first second) n := by
  refine courses_read fun before _ => ?_
  split
  · exact courses_throw _
  · exact courses_read fun _ _ => (courses_propagate ..).bind fun _ _ _ => courses_read fun _ _ =>
      courses_read fun _ _ => courses_linkUnder ..

theorem courses_followAll (gap : Number) (ids : List EpisodeId) :
    Courses L (followAll gap ids) n := by
  induction ids generalizing n with
  | nil => exact courses_pure []
  | cons first rest ih =>
    cases rest with
    | nil => exact courses_pure []
    | cons second rest =>
      exact (courses_follow gap first second).bind fun _ _ _ => ih.bind fun _ _ _ => courses_pure _

/-- The constraint leads from the end of an episode of the list to the start of
another. -/
def LeadsOn (n : Network) (ids : List EpisodeId) (c : TemporalId) : Prop :=
  ∃ first ∈ ids, ∃ second ∈ ids, ∃ e f, n.episode first = .ok e ∧ n.episode second = .ok f ∧
    n.Spans c e.finish f.start

theorem LeadsOn.stays {ids : List EpisodeId} (h : LeadsOn n ids c) (stays : Stays n m) :
    LeadsOn m ids c := by
  obtain ⟨first, member, second, member', e, f, found, found', spans⟩ := h
  obtain ⟨e', found, same⟩ := stays.episode found
  obtain ⟨f', found', same'⟩ := stays.episode found'
  refine ⟨first, member, second, member', e', f', found, found', ?_⟩
  rw [same.finish, same'.start]
  exact spans.stays stays

theorem LeadsOn.cons {ids : List EpisodeId} (h : LeadsOn n ids c) (id : EpisodeId) :
    LeadsOn n (id :: ids) c := by
  obtain ⟨first, member, second, member', rest⟩ := h
  exact ⟨first, .tail _ member, second, .tail _ member', rest⟩

theorem leadsOn_of_follow {first second : EpisodeId} (rest : List EpisodeId)
    (done : follow gap first second n = .ok c m) :
    m.Flagged first false ∧ LeadsOn m (first :: second :: rest) c := by
  obtain ⟨before, s, k, after, t, found, going, _, propagated, found', _, linked⟩ :=
    follow_eq_ok done
  have stays := ((courses_propagate (L := .full) second s).of_ok propagated).stays
  have stays' := ((courses_linkUnder (L := .full) ..).of_ok linked).stays
  obtain ⟨e, there, same⟩ := (stays.trans stays').episode found
  obtain ⟨f, there', same'⟩ := stays'.episode found'
  refine ⟨⟨e, there, same.terminal.trans going⟩, first, .head _, second, .tail _ (.head _), e, f,
    there, there', ?_⟩
  rw [same.finish, same'.start]
  exact spans_of_linkUnder linked

/-- No episode of a sequence but the last one ends the execution. -/
theorem leadsOn_of_followAll {ids : List EpisodeId} {links : List TemporalId}
    (done : followAll gap ids n = .ok links m) :
    (∀ id ∈ ids.dropLast, m.Flagged id false) ∧ ∀ c ∈ links, LeadsOn m ids c := by
  induction ids generalizing n links with
  | nil =>
    obtain ⟨rfl, _⟩ := Attempt.pure_eq_ok_iff.mp done
    exact ⟨nofun, nofun⟩
  | cons first rest ih =>
    cases rest with
    | nil =>
      obtain ⟨rfl, _⟩ := Attempt.pure_eq_ok_iff.mp done
      exact ⟨nofun, nofun⟩
    | cons second rest =>
      obtain ⟨c, k, others, followed, remaining, rfl⟩ := followAll_cons_eq_ok done
      have stays := ((courses_followAll (L := .full) gap (second :: rest)).of_ok remaining).stays
      obtain ⟨going, leads⟩ := leadsOn_of_follow rest followed
      obtain ⟨flags, links⟩ := ih remaining
      refine ⟨?_, List.forall_mem_cons.mpr
        ⟨leads.stays stays, fun c member => (links c member).cons first⟩⟩
      rw [List.dropLast_cons_cons]
      exact List.forall_mem_cons.mpr ⟨going.stays stays, flags⟩

theorem courses_closeSequence (options : CompositionOptions) (last finish : EventId) :
    Courses L (closeSequence options last finish) n := by
  unfold closeSequence
  split
  · exact courses_pure _
  · exact courses_read fun _ _ => (courses_changeGuard ..).bind fun _ _ _ =>
      (courses_linkUnder ..).bind fun _ _ _ => courses_pure _

theorem spans_of_closeSequence {last finish : EventId} {links : List TemporalId}
    (done : closeSequence options last finish n = .ok links m) :
    ∀ c ∈ links, m.Spans c last finish := by
  rcases closeSequence_eq_ok done with ⟨_, _, rfl⟩ | ⟨_, _, _, _, _, _, made, rfl⟩
  · nofun
  · exact List.forall_mem_singleton.mpr (spans_of_linkUnder made)

theorem courses_sequence (ids : List EpisodeId) (options : CompositionOptions) :
    Courses L (sequence ids options) n := by
  unfold sequence
  split
  next first last isFirst isLast =>
    refine courses_atomically (Follows.of_error (follows_read fun _ _ => follows_read fun _ _ =>
      (follows_openSequence ..).bind fun _ _ _ =>
      (follows_followAll options.valid_gap _).bind fun _ _ _ =>
      (follows_closeSequence ..).bind fun _ _ _ => follows_addComposite ..)) fun n _ => ?_
    refine courses_read fun firstEpisode found => courses_read fun lastEpisode found' => ?_
    refine (courses_openSequence ..).bind fun (start, finish, opening) k₁ opened => ?_
    refine (courses_followAll ..).bind fun links k₂ following => ?_
    refine (courses_closeSequence ..).bind fun closing k₃ closed => ?_
    have stays₁ := ((courses_openSequence (L := .full) ..).of_ok opened).stays
    have stays₃ := ((courses_closeSequence (L := .full) ..).of_ok closed).stays
    have stays₂ := ((courses_followAll (L := .full) ..).of_ok following).stays.trans stays₃
    obtain ⟨flags, leads⟩ := leadsOn_of_followAll following
    obtain ⟨f, there, same⟩ := (stays₁.trans stays₂).episode found
    obtain ⟨l, there', same'⟩ := (stays₁.trans stays₂).episode found'
    refine courses_addComposite fun e starts finishes composition constraints terminal => ?_
    have among {id : EpisodeId} (member : id ∈ ids) : id ∈ e.composition.episodes := by
      rwa [composition]
    refine ⟨fun c member => ?_, ?_⟩
    · rw [constraints, OrdSet.mem_ofList_iff, List.mem_append, List.mem_append] at member
      rcases member with (opens | leads') | closes
      · have spans := (spans_of_openSequence opened c opens).stays stays₂
        refine spans.inside (borders_start starts) ?_
        exact same.start ▸ borders_child_start (among (List.mem_of_head? isFirst)) there
      · obtain ⟨_, member, _, member', _, _, found, found', spans⟩ := (leads c leads').stays stays₃
        exact spans.inside (borders_child_finish (among member) found)
          (borders_child_start (among member') found')
      · refine (spans_of_closeSequence closed c closes).inside ?_ (borders_finish finishes)
        exact same'.finish ▸ borders_child_finish (among (List.mem_of_getLast? isLast)) there'
    · rw [composition, terminal]
      refine ⟨ids.dropLast, last, ?_, fun id member => (flags id member).stays stays₃, l, there',
        same'.terminal⟩
      exact (List.dropLast_append_getLast? last isLast).symm
  next => exact courses_throw _

/-! ## Parallel compositions -/

theorem flagged_of_checkNotTerminal {ids : List EpisodeId}
    (checked : checkNotTerminal n ids = .ok ()) : ∀ id ∈ ids, n.Flagged id false := by
  induction ids with
  | nil => nofun
  | cons id rest ih =>
    obtain ⟨e, found, later⟩ := bind_eq_ok_iff.mp checked
    by_cases terminal : e.terminal = true
    · rw [if_pos terminal] at later
      cases later
    · rw [if_neg terminal] at later
      exact List.forall_mem_cons.mpr ⟨⟨e, found, by simpa using terminal⟩, ih later⟩

theorem checkNotTerminal_of_flagged {ids : List EpisodeId}
    (running : ∀ id ∈ ids, n.Flagged id false) : checkNotTerminal n ids = .ok () := by
  induction ids with
  | nil => rfl
  | cons id rest ih =>
    obtain ⟨⟨e, found, goes⟩, others⟩ := List.forall_mem_cons.mp running
    rw [checkNotTerminal, found]
    show (if e.terminal then _ else _) = _
    rw [goes]
    exact ih others

theorem courses_joinBranch (start finish : EventId) (id : EpisodeId) :
    Courses L (joinBranch start finish id) n :=
  courses_read fun _ _ => (courses_link ..).bind fun _ _ _ => (courses_link ..).bind fun _ _ _ =>
    courses_read fun _ _ => (courses_changeGuard ..).bind fun _ _ _ => courses_pure _

theorem courses_joinBranches (start finish : EventId) (ids : List EpisodeId) :
    Courses L (joinBranches start finish ids) n := by
  induction ids generalizing n with
  | nil => exact courses_pure []
  | cons id rest ih =>
    exact (courses_joinBranch start finish id).bind fun _ _ _ => ih.bind fun _ _ _ => courses_pure _

/-- The constraints lead from the start to that of an episode of the list, and from its
end to the finish. -/
def Joins (n : Network) (start finish : EventId) (ids : List EpisodeId)
    (links : TemporalId × TemporalId) : Prop :=
  ∃ id ∈ ids, ∃ e, n.episode id = .ok e ∧ n.Spans links.1 start e.start ∧
    n.Spans links.2 e.finish finish

theorem Joins.stays {ids : List EpisodeId} {links : TemporalId × TemporalId}
    (h : Joins n start finish ids links) (stays : Stays n m) : Joins m start finish ids links := by
  obtain ⟨id, member, e, found, opening, closing⟩ := h
  obtain ⟨e', found, same⟩ := stays.episode found
  refine ⟨id, member, e', found, ?_⟩
  rw [same.start, same.finish]
  exact ⟨opening.stays stays, closing.stays stays⟩

theorem joins_of_joinBranch {links : TemporalId × TemporalId} {rest : List EpisodeId}
    (done : joinBranch start finish id n = .ok links m) :
    Joins m start finish (id :: rest) links := by
  obtain ⟨e, k₁, k₂, s, found, opened, closed, _, narrowed⟩ := joinBranch_eq_ok done
  have stays₃ := ((courses_changeGuard (L := .full) ..).of_ok narrowed).stays
  have stays₂ := ((courses_link (L := .full) ..).of_ok closed).stays.trans stays₃
  have stays₁ := ((courses_link (L := .full) ..).of_ok opened).stays
  obtain ⟨e', there, same⟩ := (stays₁.trans stays₂).episode found
  refine ⟨id, .head _, e', there, ?_⟩
  rw [same.start, same.finish]
  exact ⟨(spans_of_link opened).stays stays₂, (spans_of_link closed).stays stays₃⟩

theorem joins_of_joinBranches {ids : List EpisodeId} {links : List (TemporalId × TemporalId)}
    (done : joinBranches start finish ids n = .ok links m) :
    ∀ l ∈ links, Joins m start finish ids l := by
  induction ids generalizing n links with
  | nil =>
    obtain ⟨rfl, rfl⟩ := Attempt.pure_eq_ok_iff.mp done
    nofun
  | cons id rest ih =>
    obtain ⟨l, k, others, joined, remaining, rfl⟩ := joinBranches_cons_eq_ok done
    have stays := ((courses_joinBranches (L := .full) start finish rest).of_ok remaining).stays
    refine List.forall_mem_cons.mpr ⟨(joins_of_joinBranch joined).stays stays, fun l member => ?_⟩
    obtain ⟨other, member, rest⟩ := ih remaining l member
    exact ⟨other, .tail _ member, rest⟩

theorem courses_parallel (ids : List EpisodeId) (options : CompositionOptions) :
    Courses L (parallel ids options) n := by
  unfold parallel
  split
  · exact courses_throw _
  refine courses_read fun _ checked => courses_atomically (Follows.of_error ?_) fun k same => ?_
  · exact (follows_eventOrNew _).bind fun _ _ _ => (follows_eventOrNew _).bind fun _ _ _ =>
      (follows_joinBranches ..).bind fun links _ _ => follows_read fun joint found =>
      (follows_closeLinks links found).bind fun _ _ _ => follows_addComposite ..
  refine (courses_eventOrNew _).bind fun start k₁ first => ?_
  refine (courses_eventOrNew _).bind fun finish k₂ second => ?_
  refine (courses_joinBranches ..).bind fun links k₃ joined => courses_read fun joint found => ?_
  refine (courses_each (fun _ _ => courses_changeGuard _ _) _).bind fun _ k₄ closed => ?_
  have stays₄ : Stays k₃ k₄ :=
    ((courses_each (L := .full) (fun _ _ => courses_changeGuard _ _) _).of_ok closed).stays
  have stays₃ := ((courses_joinBranches (L := .full) ..).of_ok joined).stays.trans stays₄
  have stays₂ := ((courses_eventOrNew (L := .full) _).of_ok second).stays.trans stays₃
  have stays₁ := ((courses_eventOrNew (L := .full) _).of_ok first).stays.trans stays₂
  refine courses_addComposite fun e starts finishes composition constraints terminal => ?_
  have among {id : EpisodeId} (member : id ∈ ids) : id ∈ e.composition.episodes := by
    rwa [composition]
  refine ⟨fun c member => ?_, ?_⟩
  · rw [constraints, OrdSet.mem_ofList_iff, List.mem_append] at member
    rcases member with opening | closing
    · obtain ⟨l, inside, rfl⟩ := List.mem_map.mp opening
      obtain ⟨id, member, f, there, spans, _⟩ :=
        (joins_of_joinBranches joined l inside).stays stays₄
      exact spans.inside (borders_start starts) (borders_child_start (among member) there)
    · obtain ⟨l, inside, rfl⟩ := List.mem_map.mp closing
      obtain ⟨id, member, f, there, _, spans⟩ :=
        (joins_of_joinBranches joined l inside).stays stays₄
      exact spans.inside (borders_child_finish (among member) there) (borders_finish finishes)
  · rw [composition, terminal]
    exact ⟨rfl, fun id member => (flagged_of_checkNotTerminal checked id member).stays
      ((Stays.of_bare same).trans stays₁)⟩

/-! ## Branchings -/

theorem courses_addBranch (choice finish : EventId) (subject : ChoiceVariable) (value : String)
    (id : EpisodeId) : Courses L (addBranch choice finish subject value id) n := by
  refine (courses_propagate ..).bind fun _ _ _ => courses_read fun episode _ => ?_
  refine (courses_linkWith ..).bind fun _ _ _ => ?_
  split
  · exact courses_pure _
  · exact (courses_linkWith ..).bind fun _ _ _ => courses_pure _

theorem courses_addBranches (choice finish : EventId) (subject : ChoiceVariable)
    (entries : List (String × EpisodeId)) :
    Courses L (addBranches choice finish subject entries) n := by
  induction entries generalizing n with
  | nil => exact courses_pure []
  | cons entry rest ih =>
    exact (courses_addBranch ..).bind fun _ _ _ => ih.bind fun _ _ _ => courses_pure _

/-- The constraint leads from the choice to the start of an episode of the list, or from
its end to the finish. -/
def Parts (n : Network) (choice finish : EventId) (ids : List EpisodeId) (c : TemporalId) : Prop :=
  ∃ id ∈ ids, ∃ e, n.episode id = .ok e ∧ (n.Spans c choice e.start ∨ n.Spans c e.finish finish)

theorem Parts.stays {choice : EventId} {ids : List EpisodeId} (h : Parts n choice finish ids c)
    (stays : Stays n m) : Parts m choice finish ids c := by
  obtain ⟨id, member, e, found, spans⟩ := h
  obtain ⟨e', found, same⟩ := stays.episode found
  refine ⟨id, member, e', found, ?_⟩
  rw [same.start, same.finish]
  exact spans.imp (·.stays stays) (·.stays stays)

theorem parts_of_addBranch {choice : EventId} {subject : ChoiceVariable} {value : String}
    {branch : Branch} {rest : List EpisodeId}
    (done : addBranch choice finish subject value id n = .ok branch m) :
    ∀ c ∈ branch.links, Parts m choice finish (id :: rest) c := by
  obtain ⟨k, e, opening, k₁, _, found, opened, ends⟩ := addBranch_eq_ok done
  have stays₁ := ((courses_linkWith (L := .full) ..).of_ok opened).stays
  rcases ends with ⟨_, rfl, rfl⟩ | ⟨_, closing, closed, rfl⟩
  · obtain ⟨e', there, same⟩ := stays₁.episode found
    refine List.forall_mem_singleton.mpr ⟨id, .head _, e', there, .inl ?_⟩
    exact same.start ▸ spans_of_linkWith opened
  · have stays₂ := ((courses_linkWith (L := .full) ..).of_ok closed).stays
    obtain ⟨e', there, same⟩ := (stays₁.trans stays₂).episode found
    refine List.forall_mem_cons.mpr ⟨⟨id, .head _, e', there, .inl ?_⟩,
      List.forall_mem_singleton.mpr ⟨id, .head _, e', there, .inr ?_⟩⟩
    · exact same.start ▸ (spans_of_linkWith opened).stays stays₂
    · exact same.finish ▸ spans_of_linkWith closed

theorem parts_of_addBranches {choice : EventId} {subject : ChoiceVariable}
    {entries : List (String × EpisodeId)} {branches : List Branch}
    (done : addBranches choice finish subject entries n = .ok branches m) :
    ∀ c ∈ branches.flatMap (·.links), Parts m choice finish (entries.map (·.2)) c := by
  induction entries generalizing n branches with
  | nil =>
    obtain ⟨rfl, rfl⟩ := Attempt.pure_eq_ok_iff.mp done
    nofun
  | cons entry rest ih =>
    obtain ⟨branch, k, others, added, remaining, rfl⟩ := addBranches_cons_eq_ok done
    have stays := ((courses_addBranches (L := .full) ..).of_ok remaining).stays
    intro c member
    rcases List.mem_append.mp member with here | there
    · exact (parts_of_addBranch added c here).stays stays
    · obtain ⟨other, member, rest⟩ := ih remaining c there
      exact ⟨other, .tail _ member, rest⟩

theorem sameEpisodes_addBranches {choice : EventId} {subject : ChoiceVariable}
    {entries : List (String × EpisodeId)} {branches : List Branch}
    (done : addBranches choice finish subject entries n = .ok branches m) : SameEpisodes n m := by
  induction entries generalizing n branches with
  | nil =>
    obtain ⟨_, rfl⟩ := Attempt.pure_eq_ok_iff.mp done
    exact .of_eq rfl
  | cons entry rest ih =>
    obtain ⟨_, _, _, added, remaining, _⟩ := addBranches_cons_eq_ok done
    exact (sameEpisodes_addBranch added).trans (ih remaining)

/-- All branches end the execution if all episodes do. -/
theorem forall_flagged_iff {subject : ChoiceVariable} {ids : List EpisodeId}
    {branches : List Branch} (same : subject.arity = ids.length)
    (flags : branches.map (fun b => (b.value, b.terminal)) =
      (subject.domain.zip ids).map fun entry => (entry.1, n.isTerminal entry.2)) :
    ((branches.filter (·.terminal)).length == subject.arity) = true ↔
      ∀ id ∈ ids, n.Flagged id true := by
  rw [length_filter_terminal same flags, same, beq_iff_eq, List.length_filter_eq_length_iff]
  simp only [flagged_true_iff]

theorem courses_branch (choice : EventId) (ids : List EpisodeId) (options : CompositionOptions) :
    Courses L (branch choice ids options) n := by
  refine courses_read fun data chosen => ?_
  by_cases mismatch : data.subject.arity ≠ ids.length
  · rw [if_pos mismatch]
    exact courses_throw _
  rw [if_neg mismatch]
  have arity := not_not.mp mismatch
  have paired : (data.subject.domain.zip ids).map (·.2) = ids :=
    List.map_snd_zip (Nat.le_of_eq arity.symm)
  refine courses_atomically (follows_branch_steps ..).of_error fun k same => ?_
  refine (courses_eventOrNew _).bind fun finish k₁ first => ?_
  refine (courses_addBranches ..).bind fun branches k₂ added => ?_
  have stays₂ := ((courses_addBranches (L := .full) ..).of_ok added).stays
  have stays₁ := ((Stays.of_bare same).trans
    ((courses_eventOrNew (L := .full) _).of_ok first).stays).trans stays₂
  have last {m : Network} (more : Stays k₂ m) : Courses L (addComposite options choice finish
      (.branching choice ids) (branches.flatMap (·.links))
      ((branches.filter (·.terminal)).length == data.subject.arity)) m := by
    refine courses_addComposite fun e starts finishes composition constraints terminal => ?_
    refine ⟨fun c member => ?_, ?_⟩
    · rw [constraints, OrdSet.mem_ofList_iff] at member
      obtain ⟨id, member, f, there, spans⟩ := (parts_of_addBranches added c member).stays more
      have inside : id ∈ e.composition.episodes := by
        rw [paired] at member
        rwa [composition]
      rcases spans with opening | closing
      · exact opening.inside (borders_start starts) (borders_child_start inside there)
      · exact closing.inside (borders_child_finish inside there) (borders_finish finishes)
    · rw [composition, terminal]
      have there (id : EpisodeId) (member : id ∈ ids) : ∃ flag, k₂.Flagged id flag := by
        obtain ⟨entry, among, rfl⟩ := List.mem_map.mp (paired ▸ member)
        obtain ⟨f, found⟩ := exists_episode ((of_addBranches added).1 entry among)
        exact ⟨f.terminal, flagged found⟩
      have flags := flags_of_addBranches added
      simp only [← (sameEpisodes_addBranches added).isTerminal] at flags
      exact ⟨data, (stays₁.trans more).choice chosen, arity.symm,
        fun id member => (there id member).imp fun _ flagged => flagged.stays more,
        (forall_flagged_iff arity flags).trans (forall_flagged_iff_of_stays more there)⟩
  dsimp only
  split
  next => exact (courses_changeGuard ..).bind fun _ _ written =>
      last ((courses_changeGuard (L := .full) ..).of_ok written).stays
  next => exact last (.refl _)

end Edit

/-! ## Calls -/

/-- Whether a call of a network does only what callers may do. -/
def NetworkCall.Within (L : Licence) {α : Type} : NetworkCall α → Prop
  | addEventAs identity => L.identity identity
  | addChoice spec => L.choice spec
  | attachTemporal id constraint => L.attach id constraint
  | _ => True

theorem NetworkCall.courses_run {L : Licence} {α : Type} (call : NetworkCall α)
    (within : call.Within L) (n : Network) : Edit.Courses L call.run n := by
  cases call <;> rw [NetworkCall.run]
  case addEventAs => exact .single (.eventAs within)
  case addChoice => exact Edit.courses_addChoice within
  case addQuantity => exact Edit.courses_addQuantity ..
  case addTemporal => exact Edit.courses_addTemporal ..
  case addAssignmentConstraint => exact Edit.courses_addAssignmentConstraint ..
  case addLinearConstraint => exact Edit.courses_addLinearConstraint ..
  case addChance => exact Edit.courses_addChance ..
  case addEpisode => exact Edit.courses_addEpisode _
  case setDuration => exact Edit.courses_setDuration ..
  case attachTemporal => exact Edit.courses_attachTemporal within
  case attachState => exact Edit.courses_attachState ..
  case narrow | setSupport | addLiteral | setConjunction | clearSupport =>
    exact Edit.courses_changeGuard ..
  case propagate => exact Edit.courses_propagate ..
  case sequence => exact Edit.courses_sequence ..
  case parallel => exact Edit.courses_parallel ..
  case branch => exact Edit.courses_branch ..

theorem NetworkCall.Routine.within {α : Type} {call : NetworkCall α} (routine : call.Routine)
    (L : Licence) : call.Within L := by
  cases call <;> trivial

theorem NetworkCall.within_full {α : Type} (call : NetworkCall α) : call.Within .full := by
  cases call <;> trivial

namespace Network

/-- Whatever is done to a network, it takes its course. -/
theorem respectedUnder_course (L : Licence) :
    RespectedUnder (fun _ call => call.Within L) (Course L) where
  refl _ := .refl
  trans := Relation.ReflTransGen.trans
  count _ _ more := .single (.count more)
  whole {n m} idle course := by
    have start : Course L n n.checkpoint := .single (.journal _)
    exact (start.trans course).tail (.journal none)
  call call n made := call.courses_run (made.elim (·.within L) id) n
  event _ := .single .event
  refresh id _ := Edit.courses_refreshTemporal id
  bounds lower upper _ _ := Edit.courses_setBounds _ lower upper
  detach id _ := Edit.courses_detachTemporal id

theorem Reachable.course (h : n.Reachable) :
    ∃ tolerance, Course .full (.empty tolerance) n := by
  induction h with
  | empty tolerance => exact ⟨tolerance, .refl⟩
  | count more _ ih => exact ih.imp fun _ course => course.tail (.count more)
  | call call _ ih =>
    exact ih.imp fun _ course => course.trans (call.courses_run call.within_full _)

end Network

end PlanNetwork
