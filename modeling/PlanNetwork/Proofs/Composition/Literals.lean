/-
# Compositions repeat literals

A sequence passes on what it reads from the end of an episode, a parallel
composition what it reads from the ends of all of them. A branching speaks of its
choice, and it has looked that up.
-/

import PlanNetwork.Proofs.Composition.Narrowing
import PlanNetwork.Proofs.Network.Literals

namespace PlanNetwork

open Network

variable {known : Literal → Prop} {n m : Network} {s : Support}

namespace Edit

theorem repeats_propagate (id : EpisodeId) (only : s.Only known) :
    Repeats known (propagate id s) n :=
  repeats_atomically
    (Follows.of_error (follows_read fun _ _ => follows_read fun parts _ =>
      follows_each (fun _ _ => follows_narrow _ s) parts))
    fun _ _ => repeats_read fun _ _ _ => repeats_read fun _ _ _ =>
      repeats_each (fun _ _ => repeats_narrow _ only) _

theorem repeats_addComposite (options : CompositionOptions) (start finish : EventId)
    (composition : Composition) (constraints : List TemporalId) (terminal : Bool) :
    Repeats known (addComposite options start finish composition constraints terminal) n :=
  (repeats_allocateAs _ _ _).bind fun _ _ _ _ => repeats_addDraft _ fun _ => rfl

/-! ## Sequences -/

theorem repeats_openSequence (options : CompositionOptions) (first last : EventId) :
    Repeats known (openSequence options first last) n := by
  unfold openSequence
  cases options.mode.getD .shared with
  | shared => exact repeats_pure _
  | boundary =>
    exact (repeats_eventOrNew _).bind fun _ _ _ _ => (repeats_eventOrNew _).bind fun _ _ _ _ =>
      (repeats_link _ _ _).bind fun _ _ _ _ => repeats_pure _

theorem repeats_follow (gap : Number) (first second : EpisodeId) :
    Repeats known (follow gap first second) n := by
  refine repeats_read fun before _ _ => ?_
  by_cases terminal : before.terminal = true
  · rw [if_pos terminal]
    exact repeats_throw _
  rw [if_neg terminal]
  refine repeats_read fun support ends uses => ?_
  refine (repeats_propagate second (uses.support ends)).bind fun _ m _ _ => ?_
  exact repeats_read fun _ _ _ => repeats_read fun _ ends uses =>
    repeats_linkUnder _ _ _ (uses.support ends)

theorem repeats_followAll (gap : Number) (ids : List EpisodeId) :
    Repeats known (followAll gap ids) n := by
  induction ids generalizing n with
  | nil => exact repeats_pure []
  | cons first rest ih =>
    cases rest with
    | nil => exact repeats_pure []
    | cons second rest =>
      exact (repeats_follow gap first second).bind fun _ _ _ _ =>
        ih.bind fun _ _ _ _ => repeats_pure _

theorem repeats_closeSequence (options : CompositionOptions) (last finish : EventId) :
    Repeats known (closeSequence options last finish) n := by
  unfold closeSequence
  cases options.mode.getD .shared with
  | shared => exact repeats_pure []
  | boundary =>
    refine repeats_read fun support ends uses => ?_
    exact (repeats_setSupport _ (uses.support ends)).bind fun _ _ _ _ =>
      (repeats_linkUnder _ _ _ (uses.support ends)).bind fun _ _ _ _ => repeats_pure _

theorem repeats_sequence (ids : List EpisodeId) (options : CompositionOptions) :
    Repeats known (sequence ids options) n := by
  unfold sequence
  split
  · refine repeats_atomically (Follows.of_error (follows_read fun _ _ => follows_read fun _ _ =>
      (follows_openSequence ..).bind fun _ _ _ =>
      (follows_followAll options.valid_gap _).bind fun _ _ _ =>
      (follows_closeSequence ..).bind fun _ _ _ => follows_addComposite ..)) fun n _ => ?_
    refine repeats_read fun _ _ _ => repeats_read fun _ _ _ => ?_
    refine (repeats_openSequence _ _ _).bind fun _ _ _ _ => ?_
    refine (repeats_followAll _ _).bind fun _ _ _ _ => ?_
    exact (repeats_closeSequence _ _ _).bind fun _ _ _ _ => repeats_addComposite _ _ _ _ _ _
  · exact repeats_throw _

/-! ## Parallel compositions -/

theorem repeats_joinBranch (start finish : EventId) (id : EpisodeId) :
    Repeats known (joinBranch start finish id) n :=
  repeats_read fun _ _ _ => (repeats_link _ _ _).bind fun _ _ _ _ =>
    (repeats_link _ _ _).bind fun _ _ _ _ => repeats_read fun _ ends uses =>
      (repeats_narrow _ (uses.support ends)).bind fun _ _ _ _ => repeats_pure _

theorem repeats_joinBranches (start finish : EventId) (ids : List EpisodeId) :
    Repeats known (joinBranches start finish ids) n := by
  induction ids generalizing n with
  | nil => exact repeats_pure []
  | cons id rest ih =>
    exact (repeats_joinBranch start finish id).bind fun _ _ _ _ =>
      ih.bind fun _ _ _ _ => repeats_pure _

theorem repeats_parallel (ids : List EpisodeId) (options : CompositionOptions) :
    Repeats known (parallel ids options) n := by
  unfold parallel
  split
  · exact repeats_throw _
  refine repeats_read fun _ _ _ => repeats_atomically (Follows.of_error ?_) fun k _ => ?_
  · exact (follows_eventOrNew _).bind fun _ _ _ => (follows_eventOrNew _).bind fun _ _ _ =>
      (follows_joinBranches ..).bind fun links _ _ => follows_read fun joint found =>
      (follows_closeLinks links found).bind fun _ _ _ => follows_addComposite ..
  refine (repeats_eventOrNew _).bind fun start _ _ _ => ?_
  refine (repeats_eventOrNew _).bind fun finish _ _ _ => ?_
  refine (repeats_joinBranches _ _ _).bind fun links _ _ _ => repeats_read fun joint found uses => ?_
  refine (repeats_each (fun _ _ => repeats_setSupport _ (uses.support found)) links).bind
    fun _ _ _ _ => ?_
  exact repeats_addComposite _ _ _ _ _ _

/-! ## Branchings -/

theorem repeats_linkWith (start finish : EventId) {literal : Literal} (h : known literal) :
    Repeats known (linkWith start finish literal) n :=
  (repeats_link _ _ _).bind fun _ _ _ _ => (repeats_addLiteral _ h).bind fun _ _ _ _ =>
    repeats_pure _

theorem repeats_addBranch (choice finish : EventId) {subject : ChoiceVariable} {value : String}
    (h : known (.is subject value)) (id : EpisodeId) :
    Repeats known (addBranch choice finish subject value id) n := by
  refine (repeats_propagate id (Support.only_ofLiteral h)).bind fun _ _ _ _ =>
    repeats_read fun episode _ _ => ?_
  refine (repeats_linkWith _ _ h).bind fun _ _ _ _ => ?_
  split
  · exact repeats_pure _
  · exact (repeats_linkWith _ _ h).bind fun _ _ _ _ => repeats_pure _

theorem repeats_addBranches (choice finish : EventId) {subject : ChoiceVariable}
    {entries : List (String × EpisodeId)} (h : ∀ entry ∈ entries, known (.is subject entry.1)) :
    Repeats known (addBranches choice finish subject entries) n := by
  induction entries generalizing n with
  | nil => exact repeats_pure []
  | cons entry rest ih =>
    obtain ⟨first, others⟩ := List.forall_mem_cons.mp h
    exact (repeats_addBranch _ _ first _).bind fun _ _ _ _ =>
      (ih others).bind fun _ _ _ _ => repeats_pure _

theorem repeats_branch (choice : EventId) (ids : List EpisodeId) (options : CompositionOptions) :
    Repeats known (branch choice ids options) n := by
  refine repeats_read fun data chosen uses => ?_
  by_cases mismatch : data.subject.arity ≠ ids.length
  · rw [if_pos mismatch]
    exact repeats_throw _
  rw [if_neg mismatch]
  refine repeats_atomically (follows_branch_steps ..).of_error fun k _ => ?_
  refine (repeats_eventOrNew _).bind fun finish _ _ _ => ?_
  refine (repeats_addBranches _ _ fun _ => uses.is_of_mem_zip chosen).bind
    fun branches _ added _ => ?_
  dsimp only
  split
  next =>
    refine (repeats_setConjunction _ fun a there => ?_).bind fun _ _ _ _ =>
      repeats_addComposite _ _ _ _ _ _
    obtain ⟨branch, member, rfl⟩ := List.mem_map.mp (OrdSet.mem_of_mem_ofList there)
    have flag := List.mem_map_of_mem (f := fun b : Branch => (b.value, b.terminal))
      (List.mem_of_mem_filter member)
    rw [flags_of_addBranches added] at flag
    obtain ⟨entry, inside, same⟩ := List.mem_map.mp flag
    have value : entry.1 = branch.value := congrArg Prod.fst same
    exact (uses.choice chosen _ (value ▸ (List.of_mem_zip (b := entry.2) inside).1)).2
  next => exact repeats_addComposite _ _ _ _ _ _

end Edit

end PlanNetwork
