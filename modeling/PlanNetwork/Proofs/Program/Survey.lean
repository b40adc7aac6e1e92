/-
# Reading a tree

A root of a grove can be made the plan, and this changes nothing else. Then the
plan can be read. What is met are the episodes of the tree with what belongs to
them, so the choices that are met are those of the composites in the tree, and
each has the support of the path to its composite.
-/

import Mathlib.Data.List.Forall2
import PlanNetwork.Proofs.Program.Grove

namespace PlanNetwork

open Network

variable {p q : Program} {nodes : List Node} {root id child : EpisodeId} {n m : Network}
  {event : EventId} {t : Traversal}

/-! ## What is in a tree -/

/-- A journal that is dropped at once leaves no trace. -/
theorem Network.commit_checkpoint (idle : n.journal = none) : n.checkpoint.commit = n := by
  cases n
  cases idle
  rfl

/-- The program with an episode as its plan, which has not been read yet. -/
def Program.planned (p : Program) (id : EpisodeId) : Program := { p.stale with plan := some id }

namespace Forest

variable (forest : Forest nodes p)

include forest

theorem contains_iff (tree : Treelike nodes) :
    Contains nodes id child ↔ child ∈ p.network.internalEpisodes id := by
  have same {node : Node} (made : nodes[id.index]? = some node) :
      p.network.internalEpisodes id = node.children := by
    obtain ⟨e, found, answers⟩ := forest.answers id node made
    rw [← answers.episodes_eq]
    refine internalEpisodes_eq found ?_
    rw [answers.episodes_eq]
    exact tree.older id.index node made
  constructor
  · rintro ⟨node, made, inside⟩
    rwa [same made]
  · intro inside
    have there : id.index < nodes.length := by
      rw [← forest.count]
      by_contra beyond
      rw [internalEpisodes, Array.getElem?_eq_none (Nat.le_of_not_lt beyond)] at inside
      cases inside
    have made := List.getElem?_eq_getElem there
    exact ⟨_, made, same made ▸ inside⟩

theorem within_iff (tree : Treelike nodes) :
    Within nodes root id ↔ id ∈ p.network.unfolding root := by
  have same : Contains nodes = fun a b => b ∈ p.network.internalEpisodes a :=
    funext₂ fun a b => propext (forest.contains_iff tree)
  rw [mem_unfolding_iff, Within, same]

/-- A path leads to whatever is in the tree. -/
theorem exists_path_of_within (isRoot : IsRoot nodes root) (within : Within nodes root id) :
    ∃ literals, p.network.Path nodes root id literals := by
  induction within with
  | refl => exact ⟨[], .root⟩
  | tail _ step ih =>
    obtain ⟨literals, path⟩ := ih
    obtain ⟨node, made, inside⟩ := step
    exact forest.path_into isRoot path made inside

/-! ## The plan -/

/-- A root is adopted without any change but that the last traversal is forgotten. -/
theorem yields_adopt (isRoot : IsRoot nodes root) :
    (Build.adopt (.episode root)).Yields p fun id q => id = root ∧ q = p.stale := by
  obtain ⟨e, found⟩ := (forest.ready root isRoot).exists_episode
  have there : ∀ child ∈ [root], ∃ e, p.network.episode child = .ok e := by
    simpa using ⟨e, found⟩
  have resolved : p.resolveComponents ∅ [.episode root] = .ok ([root], ∅) :=
    Build.resolveComponents_episodes there
  have known : (p.mapNetwork .checkpoint).Registered root := by
    obtain ⟨e, found, held⟩ := forest.registered root isRoot.1
    exact ⟨e, found, held⟩
  obtain ⟨_, _, entered, rfl⟩ := Build.yields_register_again known
  have back : (p.mapNetwork .checkpoint).mapNetwork .commit = p := by
    show p.withNetwork p.network.checkpoint.commit = p
    rw [commit_checkpoint forest.idle]
    rfl
  have placed : Build.atomically (Build.placed (pure root)) p = .ok root p := by
    unfold Build.atomically
    rw [if_neg (by simp [forest.idle])]
    refine Attempt.bracket_eq_ok_iff.mpr ⟨p.mapNetwork .checkpoint, ?_, back.symm⟩
    exact Attempt.bind_eq_ok_iff.mpr ⟨root, _, rfl, Attempt.bind_eq_ok_iff.mpr
      ⟨_, _, entered, rfl⟩⟩
  exact Attempt.yields_read resolved ⟨root, p.stale,
    Attempt.bind_eq_ok_iff.mpr ⟨root, p, placed, rfl⟩, rfl, rfl⟩

/-- A root can be made the plan, and nothing else changes. -/
theorem yields_setPlan (isRoot : IsRoot nodes root) :
    (Build.setPlan (.episode root)).Yields p fun _ q => q = p.planned root := by
  refine (forest.yields_adopt isRoot).bind ?_
  rintro _ _ ⟨rfl, rfl⟩
  exact Attempt.yields_modify rfl

end Forest

/-! ## What is met -/

/-- What has been met is in the tree, and all starts of its episodes have been met. -/
structure Tours (n : Network) (root : EpisodeId) (t : Traversal) : Prop where
  /-- The episodes are those inside the root. -/
  episodes : ∀ id ∈ t.episodes.toList, id ∈ n.unfolding root
  /-- The primitive ones are those inside the root that are primitive. -/
  primitives : ∀ id, id ∈ t.primitives.toList ↔
    id ∈ n.unfolding root ∧ ∃ e, n.episode id = .ok e ∧ e.isPrimitive = true
  /-- The constraints are parts of the tree. -/
  constraints : ∀ c ∈ t.constraints.toList, .temporal c ∈ n.parts root
  /-- The events are parts of the tree. -/
  events : ∀ event ∈ t.events.toList, .event event ∈ n.parts root
  /-- The starts of its episodes are among them. -/
  starts : ∀ id ∈ n.unfolding root, ∀ {e : Episode}, n.episode id = .ok e →
    e.start ∈ t.events.toList

/-- A tree can be traversed. -/
theorem Grove.exists_tours (grove : Grove nodes p) (isRoot : IsRoot nodes root) :
    ∃ t, Traversal.collect p.network (some root) ∅ = .ok t ∧ Tours p.network root t := by
  obtain ⟨f, found⟩ := (grove.ready root isRoot).exists_episode
  have walk : p.network.Walkable (p.network.unfoldingOf (some root)) :=
    ⟨fun id inside => exists_of_mem_unfolding found inside, grove.unshared root isRoot⟩
  have none : ∀ id ∈ (∅ : OrdSet TemporalId).toList, ∃ c, p.network.temporal id = .ok c := nofun
  obtain ⟨t, collected⟩ := Traversal.exists_collect walk none
  obtain ⟨_, met⟩ := Traversal.met_of_collect collected
  obtain ⟨inner, walked, ended⟩ := Traversal.collect_eq_ok_iff.mp collected
  obtain rfl : inner = t := Except.ok.inj ended
  have events (event : EventId) : event ∈ inner.events.toList ↔ _ :=
    Traversal.mem_events_of_meetEpisodes walked
  refine ⟨inner, collected, fun id member => ?_, fun id => ?_, fun c member => ?_,
    fun event member => ?_, fun id inside e there => ?_⟩
  · exact ((met.episodes id).mp member).resolve_left OrdSet.not_mem_empty
  · exact (Traversal.mem_primitives_of_meetEpisodes walked).trans
      (or_iff_right OrdSet.not_mem_empty)
  · obtain ⟨x, inside, own⟩ := ((met.constraints c).mp member).resolve_left OrdSet.not_mem_empty
    exact grove.mem_parts inside own found
  · obtain ⟨x, inside, e, there, which⟩ := ((events event).mp member).resolve_left
      OrdSet.not_mem_empty
    refine List.mem_flatMap.mpr ⟨x, inside, (mem_ownParts_iff there).mpr ?_⟩
    rcases which with rfl | rfl <;> simp
  · exact (events e.start).mpr (.inr ⟨id, inside, e, there, .inl rfl⟩)

/-- The events that carry a choice of the wanted kind are found. -/
theorem Build.exists_choiceEvents {keep : Controllability → Bool} {ids : List EventId}
    (there : ∀ id ∈ ids, n.Has (.event id)) (found : OrdSet EventId) :
    ∃ found', ids.foldlM (Build.choiceEvents n keep) found = .ok found' ∧ ∀ id,
      id ∈ found'.toList ↔ id ∈ found.toList ∨
        id ∈ ids ∧ ∃ c, n.choice id = .ok c ∧ keep c.kind = true := by
  induction ids generalizing found with
  | nil => exact ⟨found, rfl, by simp⟩
  | cons first rest ih =>
    obtain ⟨⟨g, guarded⟩, others⟩ := List.forall_mem_cons.mp there
    obtain ⟨event, looked, _⟩ := map_eq_ok_iff.mp guarded
    obtain ⟨found', done, members⟩ := ih others
      (if event.choice.any (keep ·.kind) then found.insert first else found)
    have wanted : event.choice.any (keep ·.kind) = true ↔
        ∃ c, n.choice first = .ok c ∧ keep c.kind = true := by
      simp [choice_eq_ok_iff, looked, Option.any_eq_true]
    have grown (id : EventId) :
        id ∈ (if event.choice.any (keep ·.kind) then found.insert first else found).toList ↔
          id ∈ found.toList ∨ id = first ∧ ∃ c, n.choice id = .ok c ∧ keep c.kind = true := by
      by_cases chosen : event.choice.any (keep ·.kind) = true
      · rw [if_pos chosen, OrdSet.mem_insert_iff, or_comm]
        refine or_congr_right ⟨?_, And.left⟩
        rintro rfl
        exact ⟨rfl, wanted.mp chosen⟩
      · rw [if_neg chosen, iff_self_or]
        rintro ⟨rfl, again⟩
        exact (chosen (wanted.mpr again)).elim
    refine ⟨found', ?_, fun id => (members id).trans ?_⟩
    · rw [List.foldlM_cons]
      refine bind_eq_ok_iff.mpr ⟨_, ?_, done⟩
      simp [choiceEvents, looked, bind, Except.bind, pure, Except.pure]
    · rw [grown, List.mem_cons, or_and_right, or_assoc]

/-! ## What is known of the choices -/

/-- What is known of a choice is known of the composite that selects its branches
by it, and of the path to that. -/
structure Network.Located (n : Network) (nodes : List Node) (root : EpisodeId)
    (entry : Hierarchy.Entry) (id : EpisodeId) (literals : List Literal) : Prop where
  /-- The composite is to depend on a choice between the values of the variable. -/
  choosing : Choosing nodes id entry.subject.domain
  /-- It starts with the choice. -/
  starts : ∃ e, n.episode id = .ok e ∧ e.start = entry.event
  /-- The variable is that of its choice. -/
  decides : n.Decides id entry.subject
  /-- The path leads to it. -/
  path : n.Path nodes root id literals
  /-- No choice is passed twice on it. -/
  isPath : IsPath literals
  /-- The support of the choice is that of the path. -/
  support : entry.support = .ofPath literals

/-- The choices of a tree are known, each once. -/
structure Network.Surveys (n : Network) (nodes : List Node) (root : EpisodeId)
    (entries : List Hierarchy.Entry) : Prop where
  /-- They are choices of composites in the tree. -/
  located : ∀ entry ∈ entries, ∃ id literals, n.Located nodes root entry id literals
  /-- The choices of all composites in the tree are among them. -/
  complete : ∀ id domain, Within nodes root id → Choosing nodes id domain →
    ∃ entry ∈ entries, n.ChoiceOf nodes id entry.event
  /-- No choice is there twice. -/
  once : (entries.map (·.event)).Nodup

section Mapping

variable {α β : Type} {f : α → Except Fault β} {items : List α}

/-- If a function has a result for every item, it has results for the list. -/
theorem exists_mapM (each : ∀ a ∈ items, ∃ b, f a = .ok b) :
    ∃ results, items.mapM f = .ok results ∧
      List.Forall₂ (fun b a => f a = .ok b) results items := by
  induction items with
  | nil => exact ⟨[], rfl, .nil⟩
  | cons a rest ih =>
    obtain ⟨⟨b, first⟩, others⟩ := List.forall_mem_cons.mp each
    obtain ⟨results, later, all⟩ := ih others
    refine ⟨b :: results, ?_, .cons first all⟩
    rw [List.mapM_cons, first, later]
    rfl

end Mapping

namespace Hierarchy

theorem entryOf_eq_ok_iff {entry : Entry} : entryOf n event = .ok entry ↔
    ∃ c s, n.choice event = .ok c ∧ n.support (.event event) = .ok s ∧
      entry = ⟨event, c.subject, s⟩ := by
  constructor
  · intro done
    obtain ⟨c, chosen, rest⟩ := bind_eq_ok_iff.mp done
    obtain ⟨s, support, made⟩ := bind_eq_ok_iff.mp rest
    exact ⟨c, s, chosen, support, (Except.ok.inj made).symm⟩
  · rintro ⟨c, s, chosen, support, rfl⟩
    exact bind_eq_ok_iff.mpr ⟨c, chosen, bind_eq_ok_iff.mpr ⟨s, support, rfl⟩⟩

/-- A hierarchy can be made of choices and constraints that have supports. -/
theorem exists_ofNetwork {choices : OrdSet EventId} {constraints : OrdSet TemporalId}
    (known : ∀ event ∈ choices.toList, ∃ entry, entryOf n event = .ok entry)
    (supported : ∀ c ∈ constraints.toList, ∃ s, n.support (.temporal c) = .ok s) :
    ∃ h entries, ofNetwork n choices constraints = .ok h ∧
      h.clusters = Cluster.group (entries.map fun e => (e.event, e.support)) ∧
      h.activation = activationOf h.clusters entries ∧
      entries.map (·.event) = choices.toList ∧
      ∀ entry ∈ entries, entryOf n entry.event = .ok entry := by
  obtain ⟨entries, read, all⟩ := exists_mapM known
  obtain ⟨found, supports, _⟩ := exists_mapM (f := constraintOf n) fun c member => by
    obtain ⟨s, support⟩ := supported c member
    exact ⟨(c, s), map_eq_ok_iff.mpr ⟨s, support, rfl⟩⟩
  have events : List.Forall₂ (fun entry id => entryOf n entry.event = .ok entry ∧
      entry.event = id) entries choices.toList := by
    refine all.imp fun entry id done => ?_
    obtain ⟨c, s, _, _, rfl⟩ := entryOf_eq_ok_iff.mp done
    exact ⟨done, rfl⟩
  obtain ⟨each, same⟩ := (List.forall₂_and_left _ _).mp events
  refine ⟨_, entries, bind_eq_ok_iff.mpr ⟨entries, read, bind_eq_ok_iff.mpr ⟨found, supports, rfl⟩⟩,
    rfl, rfl, ?_, each⟩
  exact List.forall₂_eq_eq_eq ▸ List.forall₂_map_left_iff.mpr same

end Hierarchy

namespace Grove

variable (grove : Grove nodes p) (tree : Treelike nodes) (isRoot : IsRoot nodes root)

include grove tree isRoot

/-- A choice in a tree is known with its composite and the path to that. -/
theorem exists_located (same : Same p.network m) {entry : Hierarchy.Entry}
    (part : .event entry.event ∈ p.network.parts root)
    (read : Hierarchy.entryOf m entry.event = .ok entry) :
    ∃ id literals, p.network.Located nodes root entry id literals := by
  obtain ⟨c, s, chosen, support, made⟩ := Hierarchy.entryOf_eq_ok_iff.mp read
  have chosen : p.network.choice entry.event = .ok c :=
    (same.adds.toGrows.choice_iff ((grove.ready root isRoot).has part)).mp chosen
  obtain ⟨x, inside, ⟨domain, choosing⟩, e, found, starts⟩ :=
    grove.choices root isRoot part chosen
  obtain ⟨literals, path⟩ :=
    grove.exists_path_of_within isRoot ((grove.within_iff tree).mpr inside)
  have settled := grove.settled isRoot path
  obtain ⟨e', owns⟩ := settled.owns
  obtain rfl := Except.ok.inj (found.symm.trans owns.found)
  have decides : p.network.Decides x entry.subject := by
    rw [made]
    exact ⟨e, c, found, starts ▸ chosen, rfl⟩
  obtain ⟨subject, decides', rfl⟩ := grove.exists_decides choosing
  obtain rfl := decides'.unique decides
  refine ⟨x, literals, choosing, ⟨e, found, starts⟩, decides, path, settled.path.toIsPath, ?_⟩
  have supported : m.support (.event entry.event) = .ok (.ofPath literals) :=
    same.adds.support (starts ▸ owns.start)
  rw [congrArg Hierarchy.Entry.support made]
  exact Except.ok.inj (support.symm.trans supported)

/-- The choices of a tree are known once its events have been met. -/
theorem surveys (same : Same p.network m) (tours : Tours p.network root t)
    {choices : OrdSet EventId} {entries : List Hierarchy.Entry}
    (chosen : ∀ event, event ∈ choices.toList ↔
      event ∈ t.events.toList ∧ ∃ c, m.choice event = .ok c)
    (events : entries.map (·.event) = choices.toList)
    (read : ∀ entry ∈ entries, Hierarchy.entryOf m entry.event = .ok entry) :
    p.network.Surveys nodes root entries where
  located entry member := by
    have met : entry.event ∈ choices.toList := events ▸ List.mem_map_of_mem member
    have part := tours.events _ ((chosen _).mp met).1
    exact grove.exists_located tree isRoot same part (read entry member)
  complete id domain within choosing := by
    obtain ⟨subject, ⟨e, c, found, carried, _⟩, _⟩ := grove.exists_decides choosing
    have starts := tours.starts id ((grove.within_iff tree).mp within) found
    have there := (grove.ready root isRoot).has (tours.events _ starts)
    have met := (chosen _).mpr ⟨starts, c, (same.adds.toGrows.choice_iff there).mpr carried⟩
    rw [← events] at met
    obtain ⟨entry, member, which⟩ := List.mem_map.mp met
    exact ⟨entry, member, ⟨domain, choosing⟩, e, found, which.symm⟩
  once := events ▸ OrdSet.nodup _

end Grove

end PlanNetwork
