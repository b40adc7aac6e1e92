/-
# What a traversal collects

Going into internal episodes unfolds an episode to a tree. A node of the tree is told by the
way to it: the places, among the internal episodes, at which to go on. Episodes may be
internal to several others, and to one of them at several places, so an episode may occur at
several nodes; events and constraints may be shared as well.

A traversal goes through this tree and looks out for repetitions, but not for all of them. It
asks whether a primitive episode or a temporal constraint has been met before, and never
whether a composite has. That is enough: a composite that occurs again brings its duration
again. So the traversal is refused if and only if some episode occurs at two nodes or some
constraint belongs to two episodes. Otherwise it has collected what two other walks list,
which do not look out for repetitions at all.
-/

import PlanNetwork.Proofs.Program.Recursion
import PlanNetwork.Proofs.Program.Rooting

namespace PlanNetwork

open Network

variable {n : Network} {p : Program} {root : EpisodeId} {e : Episode}
  {user : OrdSet TemporalId} {t : Traversal}

namespace Network

/-! ## The tree -/

/-- The way leads from one episode to another, always into an internal episode. -/
inductive LeadsTo (n : Network) : EpisodeId → List Nat → EpisodeId → Prop where
  /-- No way at all leads to the episode itself. -/
  | here (id : EpisodeId) : n.LeadsTo id [] id
  /-- The first step is into the internal episode at some place. -/
  | down {id child x : EpisodeId} {e : Episode} {place : Nat} {way : List Nat}
      (found : n.episode id = .ok e) (inside : e.composition.episodes[place]? = some child)
      (further : n.LeadsTo child way x) : n.LeadsTo id (place :: way) x

/-- The constraint is an internal one of the episode, or its duration. -/
def Involves (n : Network) (id : EpisodeId) (c : TemporalId) : Prop :=
  ∃ e, n.episode id = .ok e ∧ (c = e.duration ∨ c ∈ e.constraints.toList)

/-- Something is met twice in the tree of an episode. -/
inductive Repetitive (n : Network) (root : EpisodeId) : Prop where
  /-- An episode occurs at two nodes. -/
  | episode {x : EpisodeId} {way way' : List Nat} (first : n.LeadsTo root way x)
      (second : n.LeadsTo root way' x) (apart : way ≠ way')
  /-- A temporal constraint belongs to two episodes. -/
  | constraint {x y : EpisodeId} {way way' : List Nat} {c : TemporalId}
      (first : n.LeadsTo root way x) (second : n.LeadsTo root way' y) (apart : x ≠ y)
      (involves : n.Involves x c) (involves' : n.Involves y c)

theorem WellFormed.exists_child (whole : n.WellFormed) (found : n.episode root = .ok e)
    {child : EpisodeId} (inside : child ∈ e.composition.episodes) : ∃ f, n.episode child = .ok f :=
  exists_episode (Nat.lt_trans ((whole.episode found).children child inside) (index_lt_size found))

theorem mem_ownConstraints_iff_involves {id : EpisodeId} {c : TemporalId} :
    c ∈ n.ownConstraints id ↔ n.Involves id c := by
  constructor
  · intro own
    cases there : n.episodes[id.index]? with
    | none =>
      rw [ownConstraints, there] at own
      cases own
    | some e =>
      have found : n.episode id = .ok e := lookup_eq_ok_iff.mpr there
      exact ⟨e, found, (mem_ownConstraints_iff found).mp own⟩
  · rintro ⟨e, found, own⟩
    exact (mem_ownConstraints_iff found).mpr own

theorem leadsTo_nil_iff {x : EpisodeId} : n.LeadsTo root [] x ↔ x = root := by
  constructor
  · rintro ⟨⟩
    rfl
  · rintro rfl
    exact .here x

theorem leadsTo_cons_iff (found : n.episode root = .ok e) {place : Nat} {way : List Nat}
    {x : EpisodeId} : n.LeadsTo root (place :: way) x ↔
      ∃ child, e.composition.episodes[place]? = some child ∧ n.LeadsTo child way x := by
  constructor
  · intro leads
    cases leads with
    | down found' inside further =>
      obtain rfl := Except.ok.inj (found.symm.trans found')
      exact ⟨_, inside, further⟩
  · rintro ⟨child, inside, further⟩
    exact .down found inside further

/-- The unfolding lists the episodes to which ways lead. -/
theorem WellFormed.mem_unfolding_iff_leadsTo (whole : n.WellFormed)
    (found : n.episode root = .ok e) {x : EpisodeId} :
    x ∈ n.unfolding root ↔ ∃ way, n.LeadsTo root way x := by
  constructor
  · intro member
    induction root using whole.wellFounded_inside.induction generalizing e with
    | _ root ih =>
      rw [whole.navigable.unfolding found] at member
      rcases List.mem_cons.mp member with rfl | member
      · exact ⟨[], .here _⟩
      · obtain ⟨child, inside, within⟩ := List.mem_flatMap.mp member
        obtain ⟨f, there⟩ := whole.exists_child found inside
        obtain ⟨place, at_place⟩ := List.mem_iff_getElem?.mp inside
        obtain ⟨way, leads⟩ := ih child ⟨e, found, inside⟩ there within
        exact ⟨place :: way, .down found at_place leads⟩
  · rintro ⟨way, leads⟩
    clear found
    induction leads with
    | here id => exact mem_unfolding_self n id
    | down found inside _ ih =>
      rw [whole.navigable.unfolding found]
      exact List.mem_cons_of_mem _ (List.mem_flatMap.mpr ⟨_, List.mem_of_getElem? inside, ih⟩)

/-- No way that is one leads back. -/
theorem WellFormed.not_leadsTo_self (whole : n.WellFormed) (found : n.episode root = .ok e)
    {place : Nat} {way : List Nat} : ¬ n.LeadsTo root (place :: way) root := by
  intro leads
  obtain ⟨child, inside, further⟩ := (leadsTo_cons_iff found).mp leads
  have member := List.mem_of_getElem? inside
  obtain ⟨f, there⟩ := whole.exists_child found member
  have within := (whole.mem_unfolding_iff_leadsTo there).mpr ⟨way, further⟩
  exact Nat.not_le.mpr ((whole.episode found).children child member) (le_of_mem_unfolding within)

/-- Internal episodes at different places have nothing in common, if their unfoldings have
nothing in common. -/
theorem WellFormed.disjoint_of_places (whole : n.WellFormed) (found : n.episode root = .ok e)
    (apart : e.composition.episodes.Pairwise (Function.onFun List.Disjoint n.unfolding))
    {i j : Nat} {a b x : EpisodeId} (differ : i ≠ j)
    (first : e.composition.episodes[i]? = some a) (second : e.composition.episodes[j]? = some b)
    (leads : ∃ way, n.LeadsTo a way x) (leads' : ∃ way, n.LeadsTo b way x) : False := by
  rw [List.pairwise_iff_getElem] at apart
  obtain ⟨hi, rfl⟩ := List.getElem?_eq_some_iff.mp first
  obtain ⟨hj, rfl⟩ := List.getElem?_eq_some_iff.mp second
  obtain ⟨_, there⟩ := whole.exists_child found (List.getElem_mem hi)
  obtain ⟨_, there'⟩ := whole.exists_child found (List.getElem_mem hj)
  have within := (whole.mem_unfolding_iff_leadsTo there).mpr leads
  have within' := (whole.mem_unfolding_iff_leadsTo there').mpr leads'
  rcases Nat.lt_or_gt_of_ne differ with lt | gt
  · exact apart i j hi hj lt within within'
  · exact apart j i hj hi gt within' within

/-- If the unfolding has no repetitions, no two ways lead to one episode. -/
theorem WellFormed.way_unique (whole : n.WellFormed) (found : n.episode root = .ok e)
    (nodup : (n.unfolding root).Nodup) {x : EpisodeId} {way way' : List Nat}
    (first : n.LeadsTo root way x) (second : n.LeadsTo root way' x) : way = way' := by
  induction way generalizing root e way' with
  | nil =>
    obtain rfl := leadsTo_nil_iff.mp first
    cases way' with
    | nil => rfl
    | cons place way' => exact absurd second (whole.not_leadsTo_self found)
  | cons place way ih =>
    cases way' with
    | nil =>
      obtain rfl := leadsTo_nil_iff.mp second
      exact absurd first (whole.not_leadsTo_self found)
    | cons place' way' =>
      obtain ⟨child, inside, leads⟩ := (leadsTo_cons_iff found).mp first
      obtain ⟨child', inside', leads'⟩ := (leadsTo_cons_iff found).mp second
      rw [whole.navigable.unfolding found, List.nodup_cons, List.nodup_flatMap] at nodup
      obtain ⟨_, each, apart⟩ := nodup
      -- places that differ have unfoldings without common episodes
      have same : place = place' := by
        by_contra differ
        exact whole.disjoint_of_places found apart differ inside inside' ⟨way, leads⟩ ⟨way', leads'⟩
      subst same
      obtain rfl := Option.some.inj (inside.symm.trans inside')
      have member := List.mem_of_getElem? inside
      obtain ⟨f, there⟩ := whole.exists_child found member
      rw [ih there (each child member) leads leads']

/-- If no two ways lead to one episode, the unfolding has no repetitions. -/
theorem WellFormed.nodup_unfolding (whole : n.WellFormed) (found : n.episode root = .ok e)
    (once : ∀ x way way', n.LeadsTo root way x → n.LeadsTo root way' x → way = way') :
    (n.unfolding root).Nodup := by
  induction root using whole.wellFounded_inside.induction generalizing e with
  | _ root ih =>
    rw [whole.navigable.unfolding found, List.nodup_cons, List.nodup_flatMap,
      List.pairwise_iff_getElem]
    have enters {place : Nat} {child x : EpisodeId}
        (inside : e.composition.episodes[place]? = some child) (within : x ∈ n.unfolding child) :
        ∃ way, n.LeadsTo root (place :: way) x := by
      obtain ⟨f, there⟩ := whole.exists_child found (List.mem_of_getElem? inside)
      obtain ⟨way, leads⟩ := (whole.mem_unfolding_iff_leadsTo there).mp within
      exact ⟨way, .down found inside leads⟩
    refine ⟨fun again => ?_, fun child member => ?_, fun i j hi hj lt x first second => ?_⟩
    · obtain ⟨child, member, within⟩ := List.mem_flatMap.mp again
      obtain ⟨place, inside⟩ := List.mem_iff_getElem?.mp member
      obtain ⟨way, leads⟩ := enters inside within
      cases once root [] _ (.here root) leads
    · obtain ⟨f, there⟩ := whole.exists_child found member
      obtain ⟨place, inside⟩ := List.mem_iff_getElem?.mp member
      refine ih child ⟨e, found, member⟩ there fun x way way' first second => ?_
      exact (List.cons.inj (once x _ _ (.down found inside first) (.down found inside second))).2
    · obtain ⟨way, leads⟩ := enters (List.getElem?_eq_getElem hi) first
      obtain ⟨way', leads'⟩ := enters (List.getElem?_eq_getElem hj) second
      exact Nat.ne_of_lt lt (List.cons.inj (once x _ _ leads leads')).1

/-- No constraint belongs to two of the episodes if and only if none of these is listed twice
and no constraint belongs to two that differ. -/
theorem pairwise_apart_iff {ids : List EpisodeId} (there : ∀ id ∈ ids, ∃ e, n.episode id = .ok e) :
    ids.Pairwise n.Apart ↔ ids.Nodup ∧ ∀ x ∈ ids, ∀ y ∈ ids, x ≠ y → n.Apart x y := by
  have : Std.Symm n.Apart := ⟨fun _ _ apart c own own' => apart c own' own⟩
  constructor
  · intro apart
    refine ⟨apart.imp_of_mem fun member _ apart => ?_, fun x hx y hy => apart.forall hx hy⟩
    obtain ⟨e, found⟩ := there _ member
    exact (Traversal.ne_of_apart found apart).symm
  · rintro ⟨nodup, apart⟩
    exact nodup.pairwise_of_forall_ne fun x hx y hy => apart x hx y hy

/-- A walk through the tree meets nothing twice if and only if there is nothing to be met
twice. -/
theorem WellFormed.walkable_iff (whole : n.WellFormed) (found : n.episode root = .ok e) :
    n.Walkable (n.unfolding root) ↔ ¬ n.Repetitive root := by
  have there : ∀ id ∈ n.unfolding root, ∃ e, n.episode id = .ok e :=
    fun _ => exists_of_mem_unfolding found
  have inside {x : EpisodeId} : x ∈ n.unfolding root ↔ ∃ way, n.LeadsTo root way x :=
    whole.mem_unfolding_iff_leadsTo found
  constructor
  · intro walk twice
    obtain ⟨nodup, apart⟩ := (pairwise_apart_iff there).mp walk.apart
    cases twice with
    | episode first second differ =>
      exact differ (whole.way_unique found nodup first second)
    | constraint first second differ involves involves' =>
      exact apart _ (inside.mpr ⟨_, first⟩) _ (inside.mpr ⟨_, second⟩) differ _
        (mem_ownConstraints_iff_involves.mpr involves)
        (mem_ownConstraints_iff_involves.mpr involves')
  · intro once
    refine ⟨there, (pairwise_apart_iff there).mpr ⟨?_, fun x hx y hy differ c own own' => ?_⟩⟩
    · refine whole.nodup_unfolding found fun x way way' first second => ?_
      by_contra differ
      exact once (.episode first second differ)
    · obtain ⟨way, first⟩ := inside.mp hx
      obtain ⟨way', second⟩ := inside.mp hy
      exact once (.constraint first second differ (mem_ownConstraints_iff_involves.mp own)
        (mem_ownConstraints_iff_involves.mp own'))

/-! ## The walks that list -/

/-- What is gathered from some episodes are the members of their sets. -/
theorem mem_of_gathered {γ : Type} [Ord γ] [Std.LawfulEqOrd γ] [Std.TransOrd γ]
    (own : Episode → OrdSet γ) {ids : List EpisodeId} {before after : OrdSet γ}
    (done : ids.foldlM (fun found x => (n.episode x).map fun e => found.union (own e)) before =
      .ok after) {a : γ} : a ∈ after.toList ↔
        a ∈ before.toList ∨ ∃ id ∈ ids, ∃ e, n.episode id = .ok e ∧ a ∈ (own e).toList := by
  induction ids generalizing before with
  | nil =>
    obtain rfl := Except.ok.inj done
    simp
  | cons id rest ih =>
    rw [List.foldlM_cons] at done
    obtain ⟨_, first, later⟩ := bind_eq_ok_iff.mp done
    obtain ⟨e, found, rfl⟩ := map_eq_ok_iff.mp first
    rw [ih later]
    simp only [OrdSet.mem_union_iff, List.mem_cons, exists_eq_or_imp, found, Except.ok.injEq,
      exists_eq_left', or_assoc]

/-- The list of what belongs to the episodes of the tree. -/
theorem visitUnfolding_eq_of_mem_iff {γ : Type} [Ord γ] [Std.LawfulEqOrd γ] [Std.TransOrd γ]
    (own : Episode → OrdSet γ) (found : n.episode root = .ok e) {whole : OrdSet γ}
    (members : ∀ a, a ∈ whole.toList ↔
      ∃ id ∈ n.unfolding root, ∃ e, n.episode id = .ok e ∧ a ∈ (own e).toList) :
    n.visitUnfolding (fun found x => (n.episode x).map fun e => found.union (own e)) ∅ root =
      .ok whole := by
  obtain ⟨listed, done⟩ := exists_visitUnfolding (fun (met : OrdSet γ) e => met.union (own e)) found ∅
  have walked := done
  rw [visitUnfolding, visitTo_eq_foldlM] at walked
  refine done.trans (congrArg Except.ok (OrdSet.eq_of_mem_iff fun a => ?_))
  rw [mem_of_gathered own walked, members]
  exact or_iff_right OrdSet.not_mem_empty

end Network

namespace Traversal

/-- What a traversal is to collect. -/
structure Collects (t : Traversal) (n : Network) (root : EpisodeId) (user : OrdSet TemporalId) :
    Prop where
  /-- The episodes are those that occur in the tree. -/
  episodes : ∀ id, id ∈ t.episodes.toList ↔ ∃ way, n.LeadsTo root way id
  /-- The primitive ones are those of them that are primitive. -/
  primitives : ∀ id, id ∈ t.primitives.toList ↔
    id ∈ t.episodes.toList ∧ ∃ e, n.episode id = .ok e ∧ e.isPrimitive = true
  /-- The events are those of the episodes and of the user's constraints. -/
  events : ∀ event, event ∈ t.events.toList ↔
    (∃ id ∈ t.episodes.toList, ∃ e, n.episode id = .ok e ∧
      (event = e.start ∨ event = e.finish)) ∨
    ∃ id ∈ user.toList, ∃ c, n.temporal id = .ok c ∧ (event = c.start ∨ event = c.finish)
  /-- The temporal constraints are those that can be listed. -/
  constraints : n.allTemporals root = .ok t.constraints
  /-- The state constraints are those that can be listed. -/
  states : n.allStates root = .ok t.states

theorem collects_of_collect (whole : n.WellFormed) (found : n.episode root = .ok e)
    (done : collect n (some root) user = .ok t) : t.Collects n root user := by
  obtain ⟨inner, walked, rest⟩ := collect_eq_ok_iff.mp done
  obtain ⟨sameConstraints, sameEpisodes, sameStates, samePrimitives⟩ := meetEndpoints_keeps rest
  have met := met_of_meetEpisodes walked
  have inside {id : EpisodeId} : id ∈ t.episodes.toList ↔ id ∈ n.unfolding root := by
    rw [sameEpisodes, met.episodes]
    exact or_iff_right OrdSet.not_mem_empty
  constructor
  · intro id
    rw [inside]
    exact whole.mem_unfolding_iff_leadsTo found
  · intro id
    rw [samePrimitives, mem_primitives_of_meetEpisodes walked, inside]
    exact or_iff_right OrdSet.not_mem_empty
  · intro event
    rw [mem_events_of_meetEndpoints rest, mem_events_of_meetEpisodes walked]
    simp only [inside]
    exact or_congr_left (or_iff_right OrdSet.not_mem_empty)
  · refine visitUnfolding_eq_of_mem_iff _ found fun c => ?_
    rw [sameConstraints, met.constraints]
    simp only [mem_ownConstraints_iff_involves]
    refine (or_iff_right OrdSet.not_mem_empty).trans (exists_congr fun id => and_congr_right fun _ =>
      exists_congr fun e => and_congr_right fun _ => OrdSet.mem_insert_iff.symm)
  · refine visitUnfolding_eq_of_mem_iff _ found fun c => ?_
    rw [sameStates, mem_states_of_meetEpisodes walked]
    exact or_iff_right OrdSet.not_mem_empty

end Traversal

namespace Program

/-- A traversal collects exactly the plan. Whatever calls a program has come about by, if it
has a plan then the collection that a traversal begins with is refused, as a repetition, if
and only if some episode occurs twice in the tree of the plan or some temporal constraint
belongs to two different episodes of it. Otherwise it succeeds. The episodes are then those of
the tree, the primitive ones those among them, the events those of the episodes and of the
user's constraints, and the temporal and the state constraints are those that belong to the
plan. -/
theorem traversal_collects_the_plan (reachable : p.Reachable .free) (planned : p.plan = some root) :
    ((∃ fault, Traversal.collect p.network p.plan p.userConstraints = .error fault ∧
        fault.category = .duplicateElement) ↔ p.network.Repetitive root) ∧
      (¬ p.network.Repetitive root →
        ∃ t, Traversal.collect p.network p.plan p.userConstraints = .ok t ∧
          t.Collects p.network root p.userConstraints) ∧
      (∀ fault, Traversal.collect p.network p.plan p.userConstraints = .error fault →
        Build.traverse p = .error fault p) ∧
      ∀ t q, Build.traverse p = .ok t q →
        Traversal.collect p.network p.plan p.userConstraints = .ok t := by
  have whole := reachable.wellFormed
  have rooted := reachable.rooted
  obtain ⟨e, found⟩ := exists_episode (rooted.plan planned)
  have walks := whole.walkable_iff found
  have succeeds (once : ¬ p.network.Repetitive root) :
      ∃ t, Traversal.collect p.network p.plan p.userConstraints = .ok t := by
    refine Traversal.exists_collect (planned ▸ walks.mpr once) fun c member => ?_
    exact ⟨_, lookup_eq_ok_iff.mpr (Array.getElem?_eq_getElem (rooted.user c member))⟩
  refine ⟨⟨?_, fun twice => ?_⟩, fun once => ?_, fun fault refused => ?_, fun t q done => ?_⟩
  · rintro ⟨fault, refused, _⟩
    by_contra once
    obtain ⟨t, done⟩ := succeeds once
    rw [done] at refused
    cases refused
  · cases result : Traversal.collect p.network p.plan p.userConstraints with
    | ok t =>
      have walkable := (Traversal.met_of_collect result).1
      rw [planned] at walkable
      exact absurd twice (walks.mp walkable)
    | error fault =>
      have repetition := Traversal.ofRepetition_of_collect whole
        (fun _ => rooted.plan) rooted.user result
      exact ⟨fault, rfl, repetition.category_eq⟩
  · obtain ⟨t, done⟩ := succeeds once
    rw [planned] at done ⊢
    exact ⟨t, done, Traversal.collects_of_collect whole found done⟩
  · exact Attempt.bind_eq_error_iff.mpr (.inl (Attempt.read_eq_error_iff.mpr ⟨refused, rfl⟩))
  · exact (Build.traverse_eq_ok done).1

/-- Two episodes side by side are collected. With the first one once more beside them, a
traversal is refused. -/
theorem traversal_collects_the_plan_beside :
    let added := (Program.ofConfig {}).afterCalls [⟨_, .addEpisode {}⟩, ⟨_, .addEpisode {}⟩]
    let once := added.afterCalls [⟨_, .parallel [.episode ⟨0⟩, .episode ⟨1⟩] {}⟩,
      ⟨_, .setPlan (.episode ⟨2⟩)⟩]
    let twice := added.afterCalls [⟨_, .parallel [.episode ⟨0⟩, .episode ⟨1⟩, .episode ⟨0⟩] {}⟩,
      ⟨_, .setPlan (.episode ⟨2⟩)⟩]
    (once.Reachable .free ∧ once.plan = some ⟨2⟩ ∧ ∃ t,
      Traversal.collect once.network once.plan once.userConstraints = .ok t ∧
        t.Collects once.network ⟨2⟩ once.userConstraints) ∧
    twice.Reachable .free ∧ twice.plan = some ⟨2⟩ ∧ twice.network.Repetitive ⟨2⟩ ∧
      ∃ fault, Build.traverse twice = .error fault twice := by
  intro added once twice
  have start : added.Reachable .free :=
    (reachable_of_config (by decide +kernel)).afterCalls fun _ _ => trivial
  have reachable : once.Reachable .free := start.afterCalls fun _ _ => trivial
  have reachable' : twice.Reachable .free := start.afterCalls fun _ _ => trivial
  have planned : once.plan = some ⟨2⟩ := by decide +kernel
  have planned' : twice.plan = some ⟨2⟩ := by decide +kernel
  have collects : (Traversal.collect once.network once.plan once.userConstraints).isOk = true := by
    decide +kernel
  have refuses : (Traversal.collect twice.network twice.plan twice.userConstraints).isOk = false := by
    decide +kernel
  obtain ⟨iff, succeeds, _⟩ := traversal_collects_the_plan reachable planned
  obtain ⟨iff', succeeds', stops, _⟩ := traversal_collects_the_plan reachable' planned'
  have repetitive : twice.network.Repetitive ⟨2⟩ := by
    by_contra none
    obtain ⟨t, done, _⟩ := succeeds' none
    rw [done] at refuses
    cases refuses
  obtain ⟨fault, stopped, _⟩ := iff'.mpr repetitive
  refine ⟨⟨reachable, planned, succeeds fun repetitive => ?_⟩, reachable', planned', repetitive,
    fault, stops fault stopped⟩
  obtain ⟨_, stopped, _⟩ := iff.mpr repetitive
  rw [stopped] at collects
  cases collects

end Program

end PlanNetwork
