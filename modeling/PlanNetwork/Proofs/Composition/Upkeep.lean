/-
# Compositions keep networks well-formed

A composition looks its episodes up before it puts a new one behind them, so
these are older than the composite. Its internal constraints have been made on
the way, and a branching starts at the event whose choice it has just read.
-/

import PlanNetwork.Proofs.Composition.Steps
import PlanNetwork.Proofs.Composition.Trails
import PlanNetwork.Proofs.Network.Upkeep

namespace PlanNetwork

open Network

variable {n m : Network}

namespace Edit

theorem keeps_propagate (id : EpisodeId) (s : Support) : Keeps (propagate id s) n :=
  keeps_atomically
    (Follows.of_error (follows_read fun _ _ => follows_read fun parts _ =>
      follows_each (fun _ _ => follows_narrow _ s) parts))
    fun _ _ => keeps_read fun _ _ => keeps_read fun _ _ => keeps_each (fun _ _ => keeps_narrow _ _) _

/-- A composite fits if its constraints are there, if what is inside it is there
and therefore older, and if a choice governs it that it starts at. -/
theorem keeps_addComposite (options : CompositionOptions) (start finish : EventId)
    {composition : Composition} {constraints : List TemporalId} (terminal : Bool)
    (linked : ∀ c ∈ constraints, c.index < n.temporals.size)
    (inside : ∀ child ∈ composition.episodes, child.index < n.episodes.size)
    (governed : ∀ c, composition.choice? = some c →
      start = c ∧ ∃ data, n.choice c = .ok data) :
    Keeps (addComposite options start finish composition constraints terminal) n := by
  refine (keeps_allocateAs _ _ _).bind fun identity k allocated => ?_
  obtain ⟨_, rfl⟩ := allocateAs_eq_ok_iff.mp allocated
  have covers := Covers.withSerial n (n.nextSerial + 1)
  refine keeps_addDraft (fun {m d} more starts finishes joined => ?_) fun _ => rfl
  have covers := covers.trans more
  refine ⟨starts, finishes, joined, fun c member => ?_, ?_, ?_, inside, fun c selects => ?_⟩
  · exact Nat.lt_of_lt_of_le (linked c (OrdSet.mem_ofList_iff.mp member)) covers.temporals
  · simp [Episode.stateConstraints, EpisodeDraft.toEpisode]
  · have none : (∅ : Assignment).keys = [] := rfl
    simp [Episode.assignments, EpisodeDraft.toEpisode, none]
  · obtain ⟨here, data, found⟩ := governed c selects
    exact ⟨here, data, covers.choice found⟩

/-! ## New links are there -/

theorem index_lt_of_linkUnder {start finish : EventId} {bounds : Bounds} {s : Support}
    {id : TemporalId} (done : linkUnder start finish bounds s n = .ok id m) :
    id.index < m.temporals.size := by
  obtain ⟨_, rfl, rfl⟩ := linkUnder_eq_ok_iff.mp done
  rw [size_withLink]
  exact Nat.lt_succ_self _

theorem index_lt_of_link {start finish : EventId} {bounds : Bounds} {id : TemporalId}
    (done : link start finish bounds n = .ok id m) : id.index < m.temporals.size := by
  obtain ⟨s, k, read, made⟩ := Attempt.bind_eq_ok_iff.mp done
  exact index_lt_of_linkUnder made

/-! ## Sequences -/

theorem keeps_openSequence (options : CompositionOptions) (first last : EventId) :
    Keeps (openSequence options first last) n := by
  unfold openSequence
  cases options.mode.getD .shared with
  | shared => exact keeps_pure _
  | boundary =>
    exact (keeps_eventOrNew _).bind fun _ _ _ => (keeps_eventOrNew _).bind fun _ _ _ =>
      (keeps_link _ _ _).bind fun _ _ _ => keeps_pure _

theorem index_lt_of_openSequence {options : CompositionOptions} {first last : EventId}
    {opened : EventId × EventId × List TemporalId}
    (done : openSequence options first last n = .ok opened m) :
    ∀ c ∈ opened.2.2, c.index < m.temporals.size := by
  rcases openSequence_eq_ok done with ⟨_, _, rfl⟩ | ⟨_, _, _, _, _, _, _, _, made, rfl⟩
  · nofun
  · exact List.forall_mem_singleton.mpr (index_lt_of_link made)

/-- The start of the second episode is there because the episode is. -/
theorem keeps_follow (gap : Number) (first second : EpisodeId) :
    Keeps (follow gap first second) n := by
  intro whole
  refine keeps_read (fun before found => ?_) whole
  by_cases terminal : before.terminal = true
  · rw [if_pos terminal]
    exact keeps_throw _
  rw [if_neg terminal]
  refine keeps_read fun support ends => ?_
  refine (keeps_propagate second support).bind fun _ m propagated => ?_
  refine keeps_read fun after found' => keeps_read fun support' _ whole' => ?_
  have covers := (follows_propagate second support).covers propagated
  exact keeps_linkUnder ⟨Nat.lt_of_lt_of_le (index_lt_of_support ends) covers.events,
    (whole'.episode found').start⟩ whole'

theorem of_follow {gap : Number} {first second : EpisodeId} {c : TemporalId}
    (done : follow gap first second n = .ok c m) :
    first.index < n.episodes.size ∧ c.index < m.temporals.size := by
  obtain ⟨_, _, _, _, _, found, _, _, _, _, _, made⟩ := follow_eq_ok done
  exact ⟨lookup_index_lt found, index_lt_of_linkUnder made⟩

theorem keeps_followAll (gap : Number) (ids : List EpisodeId) : Keeps (followAll gap ids) n := by
  induction ids generalizing n with
  | nil => exact keeps_pure []
  | cons first rest ih =>
    cases rest with
    | nil => exact keeps_pure []
    | cons second rest =>
      exact (keeps_follow gap first second).bind fun _ _ _ => ih.bind fun _ _ _ => keeps_pure _

/-- All episodes of a sequence are there if the last one is, for the others are
followed by one. -/
theorem of_followAll {gap : Number} (valid : (Bounds.precedence gap).Valid)
    {ids : List EpisodeId} {links : List TemporalId}
    (last : ∀ id, ids.getLast? = some id → id.index < n.episodes.size)
    (done : followAll gap ids n = .ok links m) :
    (∀ id ∈ ids, id.index < m.episodes.size) ∧ ∀ c ∈ links, c.index < m.temporals.size := by
  induction ids generalizing n links with
  | nil =>
    obtain ⟨rfl, rfl⟩ := Attempt.pure_eq_ok_iff.mp done
    exact ⟨nofun, nofun⟩
  | cons first rest ih =>
    cases rest with
    | nil =>
      obtain ⟨rfl, rfl⟩ := Attempt.pure_eq_ok_iff.mp done
      exact ⟨List.forall_mem_singleton.mpr (last first rfl), nofun⟩
    | cons second rest =>
      obtain ⟨c, k, others, followed, remaining, rfl⟩ := followAll_cons_eq_ok done
      have here := (follows_follow valid first second).covers followed
      have there := (follows_followAll valid (second :: rest)).covers remaining
      obtain ⟨inside, linked⟩ := of_follow followed
      obtain ⟨episodes, links⟩ := ih (fun id is_last =>
        Nat.lt_of_lt_of_le (last id (by simpa using is_last)) here.episodes) remaining
      exact ⟨List.forall_mem_cons.mpr
          ⟨Nat.lt_of_lt_of_le inside (here.trans there).episodes, episodes⟩,
        List.forall_mem_cons.mpr ⟨Nat.lt_of_lt_of_le linked there.temporals, links⟩⟩

theorem keeps_closeSequence (options : CompositionOptions) (last finish : EventId) :
    Keeps (closeSequence options last finish) n := by
  unfold closeSequence
  cases options.mode.getD .shared with
  | shared => exact keeps_pure []
  | boundary =>
    refine keeps_read fun support found => (keeps_setSupport _ _).bind fun _ m written => ?_
    have covers := covers_of_changeGuard written
    exact (keeps_linkUnder ⟨Nat.lt_of_lt_of_le (index_lt_of_support found) covers.events,
      index_lt_of_support (support_of_setSupport written)⟩).bind fun _ _ _ => keeps_pure _

theorem index_lt_of_closeSequence {options : CompositionOptions} {last finish : EventId}
    {links : List TemporalId} (done : closeSequence options last finish n = .ok links m) :
    ∀ c ∈ links, c.index < m.temporals.size := by
  rcases closeSequence_eq_ok done with ⟨_, _, rfl⟩ | ⟨_, _, _, _, _, _, made, rfl⟩
  · nofun
  · exact List.forall_mem_singleton.mpr (index_lt_of_linkUnder made)

theorem keeps_sequence (ids : List EpisodeId) (options : CompositionOptions) :
    Keeps (sequence ids options) n := by
  unfold sequence
  split
  next first last _ isLast =>
    refine keeps_atomically (Follows.of_error (follows_read fun _ _ => follows_read fun _ _ =>
      (follows_openSequence ..).bind fun _ _ _ =>
      (follows_followAll options.valid_gap _).bind fun _ _ _ =>
      (follows_closeSequence ..).bind fun _ _ _ => follows_addComposite ..)) fun n _ => ?_
    refine keeps_read fun firstEpisode _ => keeps_read fun lastEpisode found => ?_
    refine (keeps_openSequence _ _ _).bind fun opened k₁ opening => ?_
    refine (keeps_followAll _ _).bind fun links k₂ following => ?_
    refine (keeps_closeSequence _ _ _).bind fun closed k₃ closing => ?_
    have covers := (follows_openSequence ..).covers opening
    have covers₂ := (follows_followAll options.valid_gap ids).covers following
    have covers₃ := (follows_closeSequence ..).covers closing
    obtain ⟨inside, linked⟩ := of_followAll options.valid_gap (fun id is_last => by
      obtain rfl : last = id := Option.some.inj (isLast.symm.trans is_last)
      exact Nat.lt_of_lt_of_le (lookup_index_lt found) covers.episodes) following
    refine keeps_addComposite _ _ _ _ ?_ (fun id member =>
      Nat.lt_of_lt_of_le (inside id member) covers₃.episodes) nofun
    simp only [List.mem_append, or_imp, forall_and]
    exact ⟨⟨fun c member => Nat.lt_of_lt_of_le (index_lt_of_openSequence opening c member)
        (covers₂.trans covers₃).temporals,
      fun c member => Nat.lt_of_lt_of_le (linked c member) covers₃.temporals⟩,
      index_lt_of_closeSequence closing⟩
  next => exact keeps_throw _

/-! ## Parallel compositions -/

theorem index_lt_of_checkNotTerminal {ids : List EpisodeId}
    (checked : checkNotTerminal n ids = .ok ()) : ∀ id ∈ ids, id.index < n.episodes.size := by
  induction ids with
  | nil => nofun
  | cons id rest ih =>
    obtain ⟨e, found, later⟩ := bind_eq_ok_iff.mp checked
    by_cases terminal : e.terminal = true
    · rw [if_pos terminal] at later
      cases later
    · rw [if_neg terminal] at later
      exact List.forall_mem_cons.mpr ⟨lookup_index_lt found, ih later⟩

theorem keeps_joinBranch (start finish : EventId) (id : EpisodeId) :
    Keeps (joinBranch start finish id) n :=
  keeps_read fun _ _ => (keeps_link _ _ _).bind fun _ _ _ => (keeps_link _ _ _).bind fun _ _ _ =>
    keeps_read fun _ _ => (keeps_narrow _ _).bind fun _ _ _ => keeps_pure _

theorem of_joinBranch {start finish : EventId} {id : EpisodeId} {links : TemporalId × TemporalId}
    (done : joinBranch start finish id n = .ok links m) :
    links.1.index < m.temporals.size ∧ links.2.index < m.temporals.size := by
  obtain ⟨e, k₁, k₂, s, _, opened, closed, _, narrowed⟩ := joinBranch_eq_ok done
  have later := (follows_link _ _ Bounds.valid_precedence_infinity).covers closed
  have narrowing := (follows_narrow (.event finish) s).covers narrowed
  exact ⟨Nat.lt_of_lt_of_le (index_lt_of_link opened) (later.trans narrowing).temporals,
    Nat.lt_of_lt_of_le (index_lt_of_link closed) narrowing.temporals⟩

theorem keeps_joinBranches (start finish : EventId) (ids : List EpisodeId) :
    Keeps (joinBranches start finish ids) n := by
  induction ids generalizing n with
  | nil => exact keeps_pure []
  | cons id rest ih =>
    exact (keeps_joinBranch start finish id).bind fun _ _ _ => ih.bind fun _ _ _ => keeps_pure _

theorem of_joinBranches {start finish : EventId} {ids : List EpisodeId}
    {links : List (TemporalId × TemporalId)}
    (done : joinBranches start finish ids n = .ok links m) :
    ∀ l ∈ links, l.1.index < m.temporals.size ∧ l.2.index < m.temporals.size := by
  induction ids generalizing n links with
  | nil =>
    obtain ⟨rfl, rfl⟩ := Attempt.pure_eq_ok_iff.mp done
    nofun
  | cons id rest ih =>
    obtain ⟨l, k, others, joined, remaining, rfl⟩ := joinBranches_cons_eq_ok done
    have covers := (follows_joinBranches start finish rest).covers remaining
    obtain ⟨opening, closing⟩ := of_joinBranch joined
    exact List.forall_mem_cons.mpr ⟨⟨Nat.lt_of_lt_of_le opening covers.temporals,
      Nat.lt_of_lt_of_le closing covers.temporals⟩, ih remaining⟩

theorem keeps_parallel (ids : List EpisodeId) (options : CompositionOptions) :
    Keeps (parallel ids options) n := by
  unfold parallel
  split
  · exact keeps_throw _
  refine keeps_read fun _ checked => keeps_atomically (Follows.of_error ?_) fun k same => ?_
  · exact (follows_eventOrNew _).bind fun _ _ _ => (follows_eventOrNew _).bind fun _ _ _ =>
      (follows_joinBranches ..).bind fun links _ _ => follows_read fun joint found =>
      (follows_closeLinks links found).bind fun _ _ _ => follows_addComposite ..
  refine (keeps_eventOrNew _).bind fun start k₁ first => ?_
  refine (keeps_eventOrNew _).bind fun finish k₂ second => ?_
  refine (keeps_joinBranches _ _ _).bind fun links k₃ joined => keeps_read fun joint found => ?_
  refine (keeps_each (fun _ _ => keeps_setSupport _ _) _).bind fun _ k₄ closed => ?_
  have covers := (follows_closeLinks links found).covers closed
  have before := ((Covers.of_bare same).trans ((follows_eventOrNew _).covers first)).trans
    ((follows_eventOrNew _).covers second)
  have before := (before.trans ((follows_joinBranches ..).covers joined)).trans covers
  refine keeps_addComposite _ _ _ _ (fun c member => ?_) (fun id member => ?_) nofun
  · have linked := of_joinBranches joined
    rcases List.mem_append.mp member with opening | closing
    · obtain ⟨l, inside, rfl⟩ := List.mem_map.mp opening
      exact Nat.lt_of_lt_of_le (linked l inside).1 covers.temporals
    · obtain ⟨l, inside, rfl⟩ := List.mem_map.mp closing
      exact Nat.lt_of_lt_of_le (linked l inside).2 covers.temporals
  · exact Nat.lt_of_lt_of_le (index_lt_of_checkNotTerminal checked id member) before.episodes

/-! ## Branchings -/

theorem keeps_linkWith (start finish : EventId) (literal : Literal) :
    Keeps (linkWith start finish literal) n :=
  (keeps_link _ _ _).bind fun _ _ _ => (keeps_addLiteral _ _).bind fun _ _ _ => keeps_pure _

theorem covers_of_linkWith {start finish : EventId} {literal : Literal} {id : TemporalId}
    (done : linkWith start finish literal n = .ok id m) :
    Covers n m ∧ id.index < m.temporals.size := by
  obtain ⟨k, linked, added⟩ := linkWith_eq_ok done
  have covers := (follows_link _ _ Bounds.valid_precedence_infinity).covers linked
  have later := covers_of_changeGuard added
  exact ⟨covers.trans later, Nat.lt_of_lt_of_le (index_lt_of_link linked) later.temporals⟩

theorem keeps_addBranch (choice finish : EventId) (subject : ChoiceVariable) (value : String)
    (id : EpisodeId) : Keeps (addBranch choice finish subject value id) n := by
  refine (keeps_propagate _ _).bind fun _ _ _ => keeps_read fun episode _ => ?_
  refine (keeps_linkWith _ _ _).bind fun _ _ _ => ?_
  split
  · exact keeps_pure _
  · exact (keeps_linkWith _ _ _).bind fun _ _ _ => keeps_pure _

theorem of_addBranch {choice finish : EventId} {subject : ChoiceVariable} {value : String}
    {id : EpisodeId} {branch : Branch}
    (done : addBranch choice finish subject value id n = .ok branch m) :
    id.index < m.episodes.size ∧ ∀ c ∈ branch.links, c.index < m.temporals.size := by
  obtain ⟨k, e, opening, k₁, _, found, opened, rest⟩ := addBranch_eq_ok done
  obtain ⟨covers, linked⟩ := covers_of_linkWith opened
  rcases rest with ⟨_, rfl, rfl⟩ | ⟨_, closing, closed, rfl⟩
  · exact ⟨Nat.lt_of_lt_of_le (lookup_index_lt found) covers.episodes,
      List.forall_mem_singleton.mpr linked⟩
  · obtain ⟨later, linked'⟩ := covers_of_linkWith closed
    exact ⟨Nat.lt_of_lt_of_le (lookup_index_lt found) (covers.trans later).episodes,
      List.forall_mem_cons.mpr ⟨Nat.lt_of_lt_of_le linked later.temporals,
        List.forall_mem_singleton.mpr linked'⟩⟩

theorem keeps_addBranches (choice finish : EventId) (subject : ChoiceVariable)
    (entries : List (String × EpisodeId)) :
    Keeps (addBranches choice finish subject entries) n := by
  induction entries generalizing n with
  | nil => exact keeps_pure []
  | cons entry rest ih =>
    exact (keeps_addBranch _ _ _ _ _).bind fun _ _ _ => ih.bind fun _ _ _ => keeps_pure _

theorem of_addBranches {choice finish : EventId} {subject : ChoiceVariable}
    {entries : List (String × EpisodeId)} {branches : List Branch}
    (done : addBranches choice finish subject entries n = .ok branches m) :
    (∀ entry ∈ entries, entry.2.index < m.episodes.size) ∧
      ∀ c ∈ branches.flatMap (·.links), c.index < m.temporals.size := by
  induction entries generalizing n branches with
  | nil =>
    obtain ⟨rfl, rfl⟩ := Attempt.pure_eq_ok_iff.mp done
    exact ⟨nofun, nofun⟩
  | cons entry rest ih =>
    obtain ⟨branch, k, others, added, remaining, rfl⟩ := addBranches_cons_eq_ok done
    have covers := (follows_addBranches choice finish subject rest).covers remaining
    obtain ⟨inside, linked⟩ := of_addBranch added
    obtain ⟨episodes, links⟩ := ih remaining
    refine ⟨List.forall_mem_cons.mpr
      ⟨Nat.lt_of_lt_of_le inside covers.episodes, episodes⟩, fun c member => ?_⟩
    rcases List.mem_append.mp member with here | there
    · exact Nat.lt_of_lt_of_le (linked c here) covers.temporals
    · exact links c there

theorem keeps_branch (choice : EventId) (ids : List EpisodeId) (options : CompositionOptions) :
    Keeps (branch choice ids options) n := by
  refine keeps_read fun data chosen => ?_
  by_cases mismatch : data.subject.arity ≠ ids.length
  · rw [if_pos mismatch]
    exact keeps_throw _
  rw [if_neg mismatch]
  refine keeps_atomically (follows_branch_steps ..).of_error fun k same => ?_
  refine (keeps_eventOrNew _).bind fun finish k₁ first => ?_
  refine (keeps_addBranches _ _ _ _).bind fun branches k₂ added => ?_
  have covers := ((Covers.of_bare same).trans ((follows_eventOrNew _).covers first)).trans
    ((follows_addBranches ..).covers added)
  obtain ⟨inside, linked⟩ := of_addBranches added
  -- there are as many values as episodes, so none has been left out
  have inside : ∀ id ∈ ids, id.index < k₂.episodes.size := fun id member => by
    have paired : ids = (data.subject.domain.zip ids).map (·.2) :=
      (List.map_snd_zip (Nat.le_of_eq (not_not.mp mismatch).symm)).symm
    rw [paired] at member
    obtain ⟨entry, there, rfl⟩ := List.mem_map.mp member
    exact inside entry there
  have last {m : Network} (terminal : Bool) (more : Covers k₂ m) :
      Keeps (addComposite options choice finish (.branching choice ids)
        (branches.flatMap (·.links)) terminal) m := by
    refine keeps_addComposite _ _ _ _
      (fun c member => Nat.lt_of_lt_of_le (linked c member) more.temporals)
      (fun id member => Nat.lt_of_lt_of_le (inside id member) more.episodes) fun c selects => ?_
    obtain rfl := Option.some.inj selects
    exact ⟨rfl, data, (covers.trans more).choice chosen⟩
  dsimp only
  split
  next =>
    exact (keeps_setConjunction _ _).bind fun _ _ written =>
      last _ (covers_of_changeGuard written)
  next => exact last _ (.refl _)

end Edit

end PlanNetwork
