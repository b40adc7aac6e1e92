/-
# What a composition adds

A composition makes one episode, and for it a duration, links between the events of
its children and its own, and the events at its ends that no child lends and no caller
gives. All of this is put behind what there was. Which links there are depends on how
the episodes are composed and on nothing that guards say: a sequence links the end of
each child to the start of the next one, and with events of its own also its start to
the first child and the last child to its end; a parallel composition links its start to
each child and each child to its end; a branching does the same, except for children
that end the execution, which do not get to its end.

Nothing else comes into being, and of what was there nothing changes but guards. Whether
the network is well-formed does not matter for this.
-/

import PlanNetwork.Proofs.Composition.Course
import PlanNetwork.Proofs.Composition.Outcome

namespace PlanNetwork

open Network

/-- Where a temporal constraint leads from and to, and its bounds. -/
structure Arc where
  /-- The event the time is counted from. -/
  start : EventId
  /-- The event the time is counted to. -/
  finish : EventId
  /-- The bounds. -/
  bounds : Bounds
deriving DecidableEq

namespace Arc

/-- Links from the end of each child to the start of the next one. -/
def between (gap : Number) (children : List Episode) : List Arc :=
  children.zipWith (fun first second => ⟨first.finish, second.start, .precedence gap⟩)
    children.tail

/-- Links from the start to a child and from the child to the end. -/
def around (start finish : EventId) (child : Episode) : List Arc :=
  [⟨start, child.start, .precedence .infinity⟩, ⟨child.finish, finish, .precedence .infinity⟩]

/-- Links from the choice to a child and, if it gets there, from the child to the end. -/
def toward (choice finish : EventId) (child : Episode) : List Arc :=
  ⟨choice, child.start, .precedence .infinity⟩ ::
    if child.terminal then [] else [⟨child.finish, finish, .precedence .infinity⟩]

end Arc

/-- What the constraint is apart from its identity and its guard. -/
def TemporalConstraint.arc (c : TemporalConstraint) : Arc := ⟨c.start, c.finish, c.bounds⟩

variable {n m k o : Network} {id : EpisodeId} {e : Episode} {start finish : EventId}
  {count count' : Nat} {arcs arcs' : List Arc} {made made' : List Episode}
  {links links' : List TemporalId} {ids : List EpisodeId} {children : List Episode}
  {options : CompositionOptions}

namespace Network

/-! ## New elements behind the old ones -/

/-- Elements have been put behind the old ones: so many events, none of them a choice,
temporal constraints along the arcs, and the episodes. Of the old ones nothing has
changed but guards. -/
structure Appends (count : Nat) (arcs : List Arc) (made : List Episode) (n m : Network) :
    Prop where
  /-- There are new events. -/
  events : ∃ new : List Event, m.bare.events.toList = n.bare.events.toList ++ new ∧
    new.length = count ∧ ∀ event ∈ new, event.choice = none
  /-- There are new temporal constraints. -/
  temporals : ∃ new : List TemporalConstraint,
    m.bare.temporals.toList = n.bare.temporals.toList ++ new ∧ new.map (·.arc) = arcs
  /-- There are new episodes. -/
  episodes : m.bare.episodes.toList = n.bare.episodes.toList ++ made.map Episode.bare
  /-- There are no new state constraints. -/
  states : m.bare.states = n.bare.states
  /-- There are no new chance constraints. -/
  chances : m.chances = n.chances
  /-- There are no new state variables. -/
  quantities : m.quantities = n.quantities
  /-- The tolerance is what it was. -/
  tolerance : m.tolerance = n.tolerance

namespace Appends

/-- If only guards have changed, there is nothing new. -/
theorem of_bare (same : m.bare = n.bare) : Appends 0 [] [] n m where
  events := ⟨[], by rw [same, List.append_nil], rfl, nofun⟩
  temporals := ⟨[], by rw [same, List.append_nil], rfl⟩
  episodes := by rw [same, List.map_nil, List.append_nil]
  states := congrArg Network.states same
  chances := (congrArg Network.chances same :)
  quantities := (congrArg Network.quantities same :)
  tolerance := (congrArg Network.tolerance same :)

theorem trans (first : Appends count arcs made n k) (second : Appends count' arcs' made' k m) :
    Appends (count + count') (arcs ++ arcs') (made ++ made') n m where
  events := by
    obtain ⟨new, listed, counted, plain⟩ := first.events
    obtain ⟨new', listed', counted', plain'⟩ := second.events
    exact ⟨new ++ new', by rw [listed', listed, List.append_assoc],
      by rw [List.length_append, counted, counted'], List.forall_mem_append.mpr ⟨plain, plain'⟩⟩
  temporals := by
    obtain ⟨new, listed, along⟩ := first.temporals
    obtain ⟨new', listed', along'⟩ := second.temporals
    exact ⟨new ++ new', by rw [listed', listed, List.append_assoc],
      by rw [List.map_append, along, along']⟩
  episodes := by rw [second.episodes, first.episodes, List.map_append, List.append_assoc]
  states := second.states.trans first.states
  chances := second.chances.trans first.chances
  quantities := second.quantities.trans first.quantities
  tolerance := second.tolerance.trans first.tolerance

theorem size_events (appends : Appends count arcs made n m) :
    m.events.size = n.events.size + count := by
  obtain ⟨new, listed, counted, _⟩ := appends.events
  have sizes := congrArg List.length listed
  rwa [List.length_append, counted, Array.length_toList, Array.length_toList, bare, bare,
    Array.size_map, Array.size_map] at sizes

theorem size_temporals (appends : Appends count arcs made n m) :
    m.temporals.size = n.temporals.size + arcs.length := by
  obtain ⟨new, listed, along⟩ := appends.temporals
  have sizes := congrArg List.length listed
  rwa [List.length_append, ← new.length_map (·.arc), along, Array.length_toList,
    Array.length_toList, bare, bare, Array.size_map, Array.size_map] at sizes

theorem size_episodes (appends : Appends count arcs made n m) :
    m.episodes.size = n.episodes.size + made.length := by
  have sizes := congrArg List.length appends.episodes
  rwa [List.length_append, List.length_map, Array.length_toList, Array.length_toList, bare, bare,
    Array.size_map, Array.size_map] at sizes

end Appends

/-- The ids of the temporal constraints that are made next. -/
def fresh (n : Network) (count : Nat) : List TemporalId :=
  (List.range' n.temporals.size count).map Handle.mk

theorem nodup_fresh (n : Network) (count : Nat) : (n.fresh count).Nodup :=
  List.Nodup.map (fun _ _ same => Handle.mk.inj same) List.nodup_range'

theorem mem_fresh_iff {c : TemporalId} : c ∈ n.fresh count ↔
    n.temporals.size ≤ c.index ∧ c.index < n.temporals.size + count := by
  rw [← List.mem_range'_1, fresh, List.mem_map]
  exact ⟨fun ⟨_, member, same⟩ => same ▸ member, fun member => ⟨_, member, rfl⟩⟩

/-- The links have been made along the arcs, in this order and without a gap, and nothing
else has. -/
structure Lays (arcs : List Arc) (links : List TemporalId) (n m : Network) : Prop extends
    Appends 0 arcs [] n m where
  /-- They have been made one after the other. -/
  numbered : links = n.fresh arcs.length

namespace Lays

theorem of_bare (same : m.bare = n.bare) : Lays [] [] n m := ⟨.of_bare same, rfl⟩

theorem trans (first : Lays arcs links n k) (second : Lays arcs' links' k m) :
    Lays (arcs ++ arcs') (links ++ links') n m := by
  refine ⟨first.toAppends.trans second.toAppends, ?_⟩
  rw [first.numbered, second.numbered, fresh, fresh, fresh, first.size_temporals,
    ← List.map_append, List.range'_append_1, List.length_append]

/-- Guards may be written before and after. -/
theorem around (before : k.bare = n.bare) (lays : Lays arcs links k o) (after : m.bare = o.bare) :
    Lays arcs links n m := by
  have all := ((Lays.of_bare before).trans lays).trans (.of_bare after)
  rwa [List.nil_append, List.nil_append, List.append_nil, List.append_nil] at all

end Lays

/-- If the episodes are there, there is a list of what is known of them. -/
theorem exists_children (inside : ∀ id ∈ ids, id.index < n.episodes.size) :
    ∃ children, List.Forall₂ (fun id f => n.episode id = .ok f) ids children := by
  induction ids with
  | nil => exact ⟨[], .nil⟩
  | cons id rest ih =>
    obtain ⟨here, there⟩ := List.forall_mem_cons.mp inside
    obtain ⟨f, found⟩ := exists_episode here
    obtain ⟨children, others⟩ := ih there
    exact ⟨f :: children, .cons found others⟩

/-- The first episode is the first one of which something is known. -/
theorem head?_children (found : List.Forall₂ (fun id f => n.episode id = .ok f) ids children)
    (isFirst : ids.head? = some id) (there : n.episode id = .ok e) : children.head? = some e := by
  cases found with
  | nil => cases isFirst
  | cons here _ =>
    obtain rfl := Option.some.inj isFirst
    exact congrArg some (Except.ok.inj (here.symm.trans there))

theorem getLast?_children (found : List.Forall₂ (fun id f => n.episode id = .ok f) ids children)
    (isLast : ids.getLast? = some id) (there : n.episode id = .ok e) :
    children.getLast? = some e := by
  rw [← List.head?_reverse] at isLast ⊢
  exact head?_children (List.rel_reverse found) isLast there

theorem SameEpisodes.size (same : SameEpisodes n m) : m.episodes.size = n.episodes.size := by
  simpa using congrArg Array.size same

end Network

/-- How many events are needed in the place of one that may be given. -/
def missing : Option EventId → Nat
  | some _ => 0
  | none => 1

namespace Edit

/-! ## What the steps add -/

theorem bare_of_changeGuard {element : Guarded} {change : Guard → Except Clash Guard} {u : Unit}
    (done : changeGuard element change n = .ok u m) : m.bare = n.bare :=
  Attempt.after_of_ok done ▸ bare_changeGuard element change n

theorem bare_of_each {α : Type} {op : α → Edit Unit} {items : List α} {u : Unit}
    (each : ∀ item k m, op item k = .ok () m → m.bare = k.bare)
    (done : Attempt.each op items n = .ok u m) : m.bare = n.bare := by
  induction items generalizing n with
  | nil =>
    obtain ⟨_, rfl⟩ := Attempt.pure_eq_ok_iff.mp done
    rfl
  | cons item rest ih =>
    obtain ⟨_, k, first, later⟩ := Attempt.bind_eq_ok_iff.mp done
    exact (ih later).trans (each item n k first)

theorem appends_eventOrNew {given : Option EventId} {event : EventId}
    (done : eventOrNew given n = .ok event m) :
    event = given.getD ⟨n.events.size⟩ ∧ Appends (missing given) [] [] n m := by
  cases given with
  | some event =>
    obtain ⟨rfl, rfl⟩ := Attempt.pure_eq_ok_iff.mp done
    exact ⟨rfl, .of_bare rfl⟩
  | none =>
    obtain ⟨identity, k, counted, pushed⟩ := Attempt.bind_eq_ok_iff.mp done
    obtain ⟨_, rfl⟩ := allocate_eq_ok_iff.mp counted
    obtain ⟨rfl, rfl⟩ := pushEvent_eq_ok_iff.mp pushed
    refine ⟨rfl, ⟨[⟨identity, .always, none⟩], ?_, rfl, by simp⟩, ⟨[], by simp [bare, withSerial], rfl⟩,
      by simp [bare, withSerial], rfl, rfl, rfl, rfl⟩
    simp [bare, withSerial, Event.bare]

theorem lays_linkUnder {bounds : Bounds} {s : Support} {c : TemporalId}
    (done : linkUnder start finish bounds s n = .ok c m) :
    Lays [⟨start, finish, bounds⟩] [c] n m := by
  obtain ⟨_, rfl, rfl⟩ := linkUnder_eq_ok_iff.mp done
  let c : TemporalConstraint :=
    ⟨.fresh "TemporalConstraint" n.nextSerial, .always, start, finish, bounds⟩
  refine ⟨⟨⟨[], by simp [bare, withLink], rfl, nofun⟩, ⟨[c], ?_, rfl⟩,
    by simp [bare, withLink], rfl, rfl, rfl, rfl⟩, rfl⟩
  simp [bare, withLink, TemporalConstraint.bare, c]

theorem lays_link {bounds : Bounds} {c : TemporalId}
    (done : link start finish bounds n = .ok c m) : Lays [⟨start, finish, bounds⟩] [c] n m := by
  obtain ⟨_, _, linked⟩ := Attempt.read_bind_eq_ok_iff.mp done
  exact lays_linkUnder linked

theorem lays_addDuration {spec : DurationSpec} {c : TemporalId}
    (done : addDuration start finish spec n = .ok c m) : ∃ bounds, spec.resolve = .ok bounds ∧
      Lays [⟨start, finish, bounds⟩] [c] n m := by
  obtain ⟨bounds, _, _, _, resolved, _, _, _, timed⟩ := addDuration_eq_ok_iff.mp done
  exact ⟨bounds, resolved, lays_linkUnder (linkUnder_eq_ok_iff.mpr timed)⟩

/-- The composite with its duration. -/
theorem appends_addComposite {composition : Composition} {constraints : List TemporalId}
    {terminal : Bool}
    (done : addComposite options start finish composition constraints terminal n = .ok id m) :
    ∃ e bounds, id = ⟨n.episodes.size⟩ ∧ m.episode id = .ok e ∧ e.start = start ∧ e.finish = finish ∧
      e.composition = composition ∧ e.constraints = .ofList constraints ∧
      e.duration = ⟨n.temporals.size⟩ ∧
      (options.duration.getD .unconstrained).resolve = .ok bounds ∧
      Appends 0 [⟨start, finish, bounds⟩] [e] n m := by
  obtain ⟨_, k₁, named, made⟩ := Attempt.bind_eq_ok_iff.mp done
  obtain ⟨_, rfl⟩ := allocateAs_eq_ok_iff.mp named
  obtain ⟨_, _, made⟩ := Attempt.read_bind_eq_ok_iff.mp made
  obtain ⟨_, _, made⟩ := Attempt.read_bind_eq_ok_iff.mp made
  obtain ⟨c, k₂, timed, pushed⟩ := Attempt.bind_eq_ok_iff.mp made
  obtain ⟨rfl, rfl⟩ := pushEpisode_eq_ok_iff.mp pushed
  obtain ⟨bounds, resolved, lays⟩ := lays_addDuration timed
  have numbered : c = ⟨n.temporals.size⟩ := List.singleton_inj.mp lays.numbered
  have before := lays.episodes
  have size : k₂.episodes.size = n.episodes.size := lays.size_episodes
  refine ⟨_, bounds, by rw [size], lookup_push_self rfl, rfl, rfl, rfl, rfl, numbered, resolved, ?_⟩
  exact { lays.toAppends with episodes := by simpa [bare, withSerial] using before }

/-! ## Sequences -/

theorem lays_follow {gap : Number} {first second : EpisodeId} {f g : Episode} {c : TemporalId}
    (same : SameEpisodes o n) (found : o.episode first = .ok f) (found' : o.episode second = .ok g)
    (done : follow gap first second n = .ok c m) :
    Lays [⟨f.finish, g.start, .precedence gap⟩] [c] n m := by
  obtain ⟨before, _, k, after, _, there, _, _, propagated, there', _, linked⟩ := follow_eq_ok done
  have bare := (narrowed_propagate propagated).bare
  obtain ⟨_, there₀⟩ := same.episode found
  obtain ⟨_, there₁⟩ := (same.trans (.of_bare bare)).episode found'
  obtain rfl := Except.ok.inj (there.symm.trans there₀)
  obtain rfl := Except.ok.inj (there'.symm.trans there₁)
  exact (lays_linkUnder linked).around bare rfl

theorem sameEpisodes_followAll {gap : Number} (done : followAll gap ids n = .ok links m) :
    SameEpisodes n m := by
  induction ids generalizing n links with
  | nil =>
    obtain ⟨_, rfl⟩ := Attempt.pure_eq_ok_iff.mp done
    exact .of_eq rfl
  | cons first rest ih =>
    cases rest with
    | nil =>
      obtain ⟨_, rfl⟩ := Attempt.pure_eq_ok_iff.mp done
      exact .of_eq rfl
    | cons second rest =>
      obtain ⟨_, _, _, followed, remaining, _⟩ := followAll_cons_eq_ok done
      exact (sameEpisodes_follow followed).trans (ih remaining)

/-- The last episode has to be there, and the others are if they are followed. -/
theorem exists_children_of_followAll {last : EpisodeId} (there : o.episode last = .ok e)
    (isLast : ids.getLast? = some last) (same : SameEpisodes o n)
    (done : followAll options.gap ids n = .ok links m) :
    ∃ children, List.Forall₂ (fun id f => o.episode id = .ok f) ids children := by
  have inside := (of_followAll options.valid_gap (fun id isLast' => ?_) done).1
  · rw [(same.trans (sameEpisodes_followAll done)).size] at inside
    exact exists_children inside
  · obtain rfl := Option.some.inj (isLast.symm.trans isLast')
    exact same.size ▸ lookup_index_lt there

theorem lays_followAll {gap : Number} (same : SameEpisodes o n)
    (found : List.Forall₂ (fun id f => o.episode id = .ok f) ids children)
    (done : followAll gap ids n = .ok links m) : Lays (Arc.between gap children) links n m := by
  induction found generalizing n links with
  | nil =>
    obtain ⟨rfl, rfl⟩ := Attempt.pure_eq_ok_iff.mp done
    exact .of_bare rfl
  | cons first rest ih =>
    cases rest with
    | nil =>
      obtain ⟨rfl, rfl⟩ := Attempt.pure_eq_ok_iff.mp done
      exact .of_bare rfl
    | cons second rest =>
      obtain ⟨c, k, others, followed, remaining, rfl⟩ := followAll_cons_eq_ok done
      exact (lays_follow same first second followed).trans
        (ih (same.trans (sameEpisodes_follow followed)) remaining)

/-! ## Parallel compositions -/

theorem lays_joinBranch {f : Episode} {pair : TemporalId × TemporalId} (same : SameEpisodes o n)
    (found : o.episode id = .ok f) (done : joinBranch start finish id n = .ok pair m) :
    Lays (Arc.around start finish f) [pair.1, pair.2] n m := by
  obtain ⟨e, k₁, k₂, s, there, opened, closed, _, narrowed⟩ := joinBranch_eq_ok done
  obtain ⟨_, there₀⟩ := same.episode found
  obtain rfl := Except.ok.inj (there.symm.trans there₀)
  exact ((lays_link opened).trans (lays_link closed)).around rfl (bare_of_changeGuard narrowed)

/-- The links of a parallel composition, side by side, are the same as in pairs. -/
theorem mem_sides_iff {pairs : List (TemporalId × TemporalId)} {c : TemporalId} :
    c ∈ pairs.map (·.1) ++ pairs.map (·.2) ↔ c ∈ flatLinks pairs := by
  rw [List.mem_append, List.mem_map, List.mem_map, mem_flatLinks, ← exists_or]
  refine exists_congr fun pair => ?_
  rw [← and_or_left, @eq_comm _ pair.1, @eq_comm _ pair.2]

theorem lays_joinBranches {pairs : List (TemporalId × TemporalId)} (same : SameEpisodes o n)
    (found : List.Forall₂ (fun id f => o.episode id = .ok f) ids children)
    (done : joinBranches start finish ids n = .ok pairs m) :
    Lays (children.flatMap (Arc.around start finish)) (flatLinks pairs) n m := by
  induction found generalizing n pairs with
  | nil =>
    obtain ⟨rfl, rfl⟩ := Attempt.pure_eq_ok_iff.mp done
    exact .of_bare rfl
  | cons here _ ih =>
    obtain ⟨pair, k, others, joined, remaining, rfl⟩ := joinBranches_cons_eq_ok done
    exact (lays_joinBranch same here joined).trans
      (ih (same.trans (sameEpisodes_joinBranch joined)) remaining)

/-! ## Branchings -/

theorem lays_linkWith {literal : Literal} {c : TemporalId}
    (done : linkWith start finish literal n = .ok c m) :
    Lays [⟨start, finish, .precedence .infinity⟩] [c] n m := by
  obtain ⟨_, linked, added⟩ := linkWith_eq_ok done
  exact (lays_link linked).around rfl (bare_of_changeGuard added)

theorem lays_addBranch {choice : EventId} {subject : ChoiceVariable} {value : String} {f : Episode}
    {branch : Branch} (same : SameEpisodes o n) (found : o.episode id = .ok f)
    (done : addBranch choice finish subject value id n = .ok branch m) :
    Lays (Arc.toward choice finish f) branch.links n m := by
  obtain ⟨k, e, opening, k₁, propagated, there, opened, rest⟩ := addBranch_eq_ok done
  have bare := (narrowed_propagate propagated).bare
  obtain ⟨_, there₀⟩ := (same.trans (.of_bare bare)).episode found
  obtain rfl := Except.ok.inj (there.symm.trans there₀)
  rcases rest with ⟨ends, rfl, rfl⟩ | ⟨goes, closing, closed, rfl⟩
  · rw [Arc.toward, if_pos (show f.terminal = true from ends)]
    exact (lays_linkWith opened).around bare rfl
  · rw [Arc.toward, if_neg (show ¬ f.terminal = true by simpa using goes)]
    exact ((lays_linkWith opened).trans (lays_linkWith closed)).around bare rfl

theorem lays_addBranches {choice : EventId} {subject : ChoiceVariable}
    {entries : List (String × EpisodeId)} {branches : List Branch} (same : SameEpisodes o n)
    (found : List.Forall₂ (fun entry f => o.episode entry.2 = .ok f) entries children)
    (done : addBranches choice finish subject entries n = .ok branches m) :
    Lays (children.flatMap (Arc.toward choice finish)) (branches.flatMap (·.links)) n m := by
  induction found generalizing n branches with
  | nil =>
    obtain ⟨rfl, rfl⟩ := Attempt.pure_eq_ok_iff.mp done
    exact .of_bare rfl
  | cons here _ ih =>
    obtain ⟨branch, k, others, added, remaining, rfl⟩ := addBranches_cons_eq_ok done
    exact (lays_addBranch same here added).trans
      (ih (same.trans (sameEpisodes_addBranch added)) remaining)

end Edit

namespace Composing

/-! ## What is made -/

/-- How many events are made. A sequence that shares those of its children makes none. -/
def newEvents : Composing → Nat
  | sequence _ options =>
    match options.mode.getD .shared with
    | .shared => 0
    | .boundary => missing options.start + missing options.finish
  | parallel _ options => missing options.start + missing options.finish
  | branch _ _ options => missing options.finish

/-- The event at the start: it is the choice of a branching, or one that is given, or else
that of the first child where this is shared, or a new one. -/
def opening (n : Network) (children : List Episode) : Composing → Option EventId
  | sequence _ options =>
    match options.mode.getD .shared with
    | .shared => children.head?.map fun first => options.start.getD first.start
    | .boundary => some (options.start.getD ⟨n.events.size⟩)
  | parallel _ options => some (options.start.getD ⟨n.events.size⟩)
  | branch choice _ _ => some choice

/-- The event at the end. If it is new, then it comes behind the one at the start. -/
def closing (n : Network) (children : List Episode) : Composing → Option EventId
  | sequence _ options =>
    match options.mode.getD .shared with
    | .shared => children.getLast?.map fun last => options.finish.getD last.finish
    | .boundary => some (options.finish.getD ⟨n.events.size + missing options.start⟩)
  | parallel _ options => some (options.finish.getD ⟨n.events.size + missing options.start⟩)
  | branch _ _ options => some (options.finish.getD ⟨n.events.size⟩)

/-- The internal constraints, in the order in which they are made. -/
def internalArcs (start finish : EventId) (children : List Episode) : Composing → List Arc
  | sequence _ options =>
    match options.mode.getD .shared with
    | .shared => Arc.between options.gap children
    | .boundary =>
      (children.head?.map fun first => ⟨start, first.start, .precedence options.gap⟩).toList ++
        Arc.between options.gap children ++
        (children.getLast?.map fun last => ⟨last.finish, finish, .precedence options.gap⟩).toList
  | parallel _ _ => children.flatMap (Arc.around start finish)
  | branch _ _ _ => children.flatMap (Arc.toward start finish)

/-- The composite has been made of the children, and with it its duration, its internal
constraints and the events that it needs, but nothing else. -/
structure Adds (composing : Composing) (id : EpisodeId) (children : List Episode) (e : Episode)
    (n m : Network) : Prop where
  /-- It is there. -/
  found : m.episode id = .ok e
  /-- It is the new one. -/
  last : id = ⟨n.episodes.size⟩
  /-- It is composed of the episodes as they are listed. -/
  composition : e.composition = composing.built
  /-- It starts where it should. -/
  start : composing.opening n children = some e.start
  /-- It ends where it should. -/
  finish : composing.closing n children = some e.finish
  /-- It comes with the events, the internal constraints and its duration. -/
  appends : ∃ bounds, (composing.options.duration.getD .unconstrained).resolve = .ok bounds ∧
    Appends composing.newEvents
      (composing.internalArcs e.start e.finish children ++ [⟨e.start, e.finish, bounds⟩]) [e] n m
  /-- Its duration comes behind the internal constraints. -/
  duration : e.duration = ⟨n.temporals.size + (composing.internalArcs e.start e.finish children).length⟩
  /-- It has the internal constraints and no others. -/
  constraints : ∀ c, c ∈ e.constraints.toList ↔
    c ∈ n.fresh (composing.internalArcs e.start e.finish children).length

variable {composing : Composing}

/-- What is left to do when the events and the links are there. -/
theorem adds_of_addComposite (composing : Composing) (children : List Episode)
    {constraints : List TemporalId} {terminal : Bool}
    (opening : composing.opening n children = some start)
    (closing : composing.closing n children = some finish)
    (events : Appends composing.newEvents [] [] n k)
    (lays : Lays (composing.internalArcs start finish children) links k o)
    (among : ∀ c, c ∈ constraints ↔ c ∈ links)
    (done : Edit.addComposite composing.options start finish composing.built constraints terminal o =
      .ok id m) : ∃ e, composing.Adds id children e n m := by
  obtain ⟨e, bounds, rfl, found, rfl, rfl, composition, internal, duration, resolved, appends⟩ :=
    Edit.appends_addComposite done
  have before := events.trans lays.toAppends
  have size : k.temporals.size = n.temporals.size := events.size_temporals
  have last : o.episodes.size = n.episodes.size := before.size_episodes
  refine ⟨e, found, by rw [last], composition, opening, closing,
    ⟨bounds, resolved, before.trans appends⟩, ?_, fun c => ?_⟩
  · rw [duration, lays.size_temporals, size]
  · rw [internal, OrdSet.mem_ofList_iff, among, lays.numbered, fresh, fresh, size]

/-- The internal constraints are new, and nothing else is but the duration. -/
theorem Adds.counts (adds : composing.Adds id children e n m) :
    e.constraints.size = (composing.internalArcs e.start e.finish children).length ∧
      (∀ c ∈ e.constraints.toList, ¬ n.Has (.temporal c)) ∧
      m.temporals.size = n.temporals.size + e.constraints.size + 1 := by
  have perm := (List.perm_ext_iff_of_nodup e.constraints.nodup (nodup_fresh ..)).mpr adds.constraints
  have size : e.constraints.size = (composing.internalArcs e.start e.finish children).length := by
    rw [OrdSet.size, perm.length_eq, fresh, List.length_map, List.length_range']
  refine ⟨size, ?_, ?_⟩
  · rintro c member ⟨g, guarded⟩
    obtain ⟨t, found, _⟩ := map_eq_ok_iff.mp guarded
    obtain ⟨behind, _⟩ := mem_fresh_iff.mp ((adds.constraints c).mp member)
    exact absurd (lookup_index_lt found) (Nat.not_lt.mpr behind)
  · obtain ⟨_, _, appends⟩ := adds.appends
    rw [appends.size_temporals, List.length_append, size, List.length_singleton]
    omega

theorem Adds.of_same (adds : composing.Adds id children e n k) (after : Same k m) :
    composing.Adds id children e n m :=
  { adds with
    found := after.episode adds.found
    appends := by
      obtain ⟨bounds, resolved, appends⟩ := adds.appends
      exact ⟨bounds, resolved, by simpa using appends.trans (.of_bare after.bare)⟩ }

end Composing

namespace Edit

theorem adds_parallel (done : parallel ids options n = .ok id m) : ∃ children e,
    List.Forall₂ (fun id f => n.episode id = .ok f) ids children ∧
      (Composing.parallel ids options).Adds id children e n m := by
  obtain ⟨checked, n', m', begins, ends, start, k₁, finish, k₂, pairs, k₃, _, k₄, first, second,
    joined, _, closed, made⟩ := parallel_eq_ok done
  obtain ⟨children, found⟩ := exists_children (index_lt_of_checkNotTerminal checked)
  have same : SameEpisodes n k₂ := ((SameEpisodes.of_bare begins.bare).trans
    (sameEpisodes_eventOrNew first)).trans (sameEpisodes_eventOrNew second)
  obtain ⟨rfl, events₁⟩ := appends_eventOrNew first
  obtain ⟨rfl, events₂⟩ := appends_eventOrNew second
  have before := Appends.of_bare begins.bare
  have size : n'.events.size = n.events.size := before.size_events
  have settled : k₄.bare = k₃.bare := bare_of_each (fun _ _ _ => bare_of_changeGuard) closed
  have lays := (lays_joinBranches same found joined).around rfl settled
  obtain ⟨e, adds⟩ := Composing.adds_of_addComposite (.parallel ids options) children (n := n)
    (by rw [Composing.opening, size]) (by rw [Composing.closing, events₁.size_events, size])
    (by simpa [Composing.newEvents] using (before.trans events₁).trans events₂) lays
    (fun _ => mem_sides_iff) made
  exact ⟨children, e, found, adds.of_same ends⟩

/-- A sequence has its events and the link to its first child, if there are any, before its
children are linked. -/
theorem appends_openSequence {firstStart lastFinish : EventId}
    {opened : EventId × EventId × List TemporalId}
    (done : openSequence options firstStart lastFinish n = .ok opened m) :
    options.mode.getD .shared = .shared ∧ m = n ∧
        opened = (options.start.getD firstStart, options.finish.getD lastFinish, []) ∨
      options.mode.getD .shared = .boundary ∧
        opened.1 = options.start.getD ⟨n.events.size⟩ ∧
        opened.2.1 = options.finish.getD ⟨n.events.size + missing options.start⟩ ∧
        ∃ k, Appends (missing options.start + missing options.finish) [] [] n k ∧
          Lays [⟨opened.1, firstStart, .precedence options.gap⟩] opened.2.2 k m := by
  rcases openSequence_eq_ok done with shared | ⟨mode, _, _, _, k₁, k, first, second, linked, rfl⟩
  · exact .inl shared
  obtain ⟨rfl, events₁⟩ := appends_eventOrNew first
  obtain ⟨rfl, events₂⟩ := appends_eventOrNew second
  exact .inr ⟨mode, rfl, by rw [events₁.size_events], k, events₁.trans events₂, lays_link linked⟩

/-- The link from the last child to the end of a sequence is the last one. -/
theorem lays_closeSequence {lastFinish : EventId}
    (done : closeSequence options lastFinish finish n = .ok links m) :
    options.mode.getD .shared = .shared ∧ m = n ∧ links = [] ∨
      options.mode.getD .shared = .boundary ∧
        Lays [⟨lastFinish, finish, .precedence options.gap⟩] links n m := by
  rcases closeSequence_eq_ok done with shared | ⟨mode, _, _, _, _, written, linked, rfl⟩
  · exact .inl shared
  · exact .inr ⟨mode, (lays_linkUnder linked).around (bare_of_changeGuard written) rfl⟩

theorem adds_sequence (done : sequence ids options n = .ok id m) : ∃ children e,
    List.Forall₂ (fun id f => n.episode id = .ok f) ids children ∧
      (Composing.sequence ids options).Adds id children e n m := by
  obtain ⟨first, last, n', m', firstEpisode, lastEpisode, isFirst, isLast, begins, ends, opens, closes,
    opened, k₁, links, k₂, closing, k₃, opening, following, closed, made⟩ := sequence_eq_ok done
  have same : SameEpisodes n k₁ :=
    (SameEpisodes.of_bare begins.bare).trans (sameEpisodes_openSequence opening)
  obtain ⟨children, found⟩ := exists_children_of_followAll
    (begins.episode_iff.mp closes) isLast same following
  have isFirst' : children.head? = some firstEpisode :=
    head?_children found isFirst (begins.episode_iff.mp opens)
  have isLast' : children.getLast? = some lastEpisode :=
    getLast?_children found isLast (begins.episode_iff.mp closes)
  have between := lays_followAll same found following
  have before := Appends.of_bare begins.bare
  have size : n'.events.size = n.events.size := before.size_events
  have added : ∃ e, (Composing.sequence ids options).Adds id children e n m' := by
    rcases appends_openSequence opening with ⟨mode, rfl, rfl⟩ |
      ⟨mode, starts, finishes, k, events, first⟩
    · rcases lays_closeSequence closed with ⟨_, rfl, rfl⟩ | ⟨mode', _⟩
      · refine Composing.adds_of_addComposite (.sequence ids options) children
          (by simp [Composing.opening, mode, isFirst']) (by simp [Composing.closing, mode, isLast'])
          (by simpa [Composing.newEvents, mode] using before)
          (by simpa [Composing.internalArcs, mode] using between) (fun _ => by simp) made
      · rw [mode] at mode'
        cases mode'
    · rcases lays_closeSequence closed with ⟨mode', _⟩ | ⟨_, last⟩
      · rw [mode] at mode'
        cases mode'
      · refine Composing.adds_of_addComposite (.sequence ids options) children
          (by simp [Composing.opening, mode, starts, size])
          (by simp [Composing.closing, mode, finishes, size])
          (by simpa [Composing.newEvents, mode] using before.trans events)
          ?_ (fun _ => Iff.rfl) made
        simpa [Composing.internalArcs, mode, isFirst', isLast'] using (first.trans between).trans last
  obtain ⟨e, adds⟩ := added
  exact ⟨children, e, found, adds.of_same ends⟩

theorem adds_branch {choice : EventId} (done : branch choice ids options n = .ok id m) :
    ∃ children e, List.Forall₂ (fun id f => n.episode id = .ok f) ids children ∧
      (Composing.branch choice ids options).Adds id children e n m := by
  obtain ⟨data, _, covered, n', m', begins, ends, finish, k₁, branches, k₂, k₃, first, added, writes,
    made⟩ := branch_eq_ok done
  have same : SameEpisodes n k₁ :=
    (SameEpisodes.of_bare begins.bare).trans (sameEpisodes_eventOrNew first)
  have paired : (data.subject.domain.zip ids).map (·.2) = ids :=
    List.map_snd_zip (Nat.le_of_eq covered.symm)
  have there : ∀ id ∈ ids, id.index < n.episodes.size := by
    rw [← paired, List.forall_mem_map, ← (same.trans (sameEpisodes_addBranches added)).size]
    exact (of_addBranches added).1
  obtain ⟨children, found⟩ := exists_children there
  have found' : List.Forall₂ (fun entry f => n.episode entry.2 = .ok f)
      (data.subject.domain.zip ids) children :=
    List.forall₂_map_left_iff.mp (paired.symm ▸ found)
  obtain ⟨rfl, events⟩ := appends_eventOrNew first
  have before := Appends.of_bare begins.bare
  have size : n'.events.size = n.events.size := before.size_events
  have settled : k₃.bare = k₂.bare := by
    rcases writes with ⟨_, written⟩ | ⟨_, rfl⟩
    · exact bare_of_changeGuard written
    · rfl
  obtain ⟨e, adds⟩ :=
    Composing.adds_of_addComposite (.branch choice ids options) children (n := n) rfl
    (by rw [Composing.closing, size]) (by simpa [Composing.newEvents] using before.trans events)
    ((lays_addBranches same found' added).around rfl settled) (fun _ => Iff.rfl) made
  exact ⟨children, e, found, adds.of_same ends⟩

end Edit

namespace Composing

/-- A composition adds exactly its network. It comes with one episode, which is composed of
the listed ones, with its duration, with an event for each end where none is given or shared,
and with internal constraints along certain arcs; these it owns, and no others. States,
chances and variables stay as they are, and so does everything about the old elements but
guards. -/
theorem composition_adds_exactly {composing : Composing} (done : composing.call.run n = .ok id m) :
    ∃ children e, List.Forall₂ (fun id f => n.episode id = .ok f) composing.built.episodes children ∧
      composing.Adds id children e n m := by
  cases composing with
  | sequence ids options => exact Edit.adds_sequence done
  | parallel ids options => exact Edit.adds_parallel done
  | branch choice ids options => exact Edit.adds_branch done

/-- The second of two branches ends the execution, so there are three internal constraints:
one to each of them from the choice, and one from the first of them to the end, which is new. -/
theorem composition_adds_exactly_terminal_branch :
    let composing : Composing := .branch ⟨0⟩ [⟨0⟩, ⟨1⟩] {}
    ∃ id m children e, composing.call.run unguarded = .ok id m ∧
      List.Forall₂ (fun id f => unguarded.episode id = .ok f) composing.built.episodes children ∧
      composing.Adds id children e unguarded m ∧
      [unguarded.events.size, m.events.size, unguarded.temporals.size] = [7, 8, 2] ∧
      (m.temporals.toList.drop 2).map (·.arc) =
        [⟨⟨0⟩, ⟨3⟩, .precedence .infinity⟩, ⟨⟨4⟩, ⟨7⟩, .precedence .infinity⟩,
          ⟨⟨0⟩, ⟨5⟩, .precedence .infinity⟩, ⟨⟨0⟩, ⟨7⟩, .precedence .infinity⟩] := by
  intro composing
  obtain ⟨id, done⟩ := Attempt.exists_eq_ok_after composing.call.run unguarded (by decide +kernel)
  obtain ⟨children, e, found, adds⟩ := composition_adds_exactly done
  exact ⟨id, _, children, e, done, found, adds, by decide +kernel, by decide +kernel⟩

end Composing

end PlanNetwork
