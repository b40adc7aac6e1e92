/-
# Where choices converge

The branches of a choice come together at the end of its branching. The guard of this
end rules out the values of the branches that end the execution, and it knows of the
others no more than that they do not. It does not know whether they are got through:
inside such a branch another choice may select an episode that ends the execution. So
the common end may occur where the branch that is selected does not end.

Whether an episode is got through can be read off what is inside it. In compositions
that are built from their leaves up the end of an episode occurs exactly where the
episode does and is got through. Composing narrows everything inside an episode alike,
so this stays true, and the common end occurs nowhere but where the branch that is
selected occurs and does not end the execution.
-/

import PlanNetwork.Proofs.Composition.Outcome
import PlanNetwork.Proofs.Program.Literals
import PlanNetwork.Proofs.Program.Nesting

namespace PlanNetwork

open Network

variable {V : Vocabulary} {v : Valuation V} {n m k : Network} {x : Guarded} {id : EpisodeId}
  {e : Episode} {composition : Composition} {touched : Guarded → Prop}

namespace Network

/-! ## Getting through -/

/-- The episode is got through: so is everything in a sequence or a parallel
composition, and a branching in which the execution goes on after some branches does not
select one after which it does not. -/
inductive ReachesEnd (n : Network) (v : Valuation V) : EpisodeId → Prop where
  /-- Nothing is inside. -/
  | primitive {id : EpisodeId} {e : Episode} (found : n.episode id = .ok e)
      (composition : e.composition = .primitive) : ReachesEnd n v id
  /-- Everything inside has to be got through. -/
  | series {id : EpisodeId} {e : Episode} {ids : List EpisodeId} (found : n.episode id = .ok e)
      (composition : e.composition = .sequence ids ∨ e.composition = .parallel ids)
      (inside : ∀ child ∈ ids, ReachesEnd n v child) : ReachesEnd n v id
  /-- The execution has to go on after the branch that is selected. -/
  | branching {id : EpisodeId} {e : Episode} {choice : EventId} {ids : List EpisodeId}
      (found : n.episode id = .ok e) (composition : e.composition = .branching choice ids)
      (goes : n.Continues v choice ids) : ReachesEnd n v id

theorem reachesEnd_iff (found : n.episode id = .ok e) :
    n.ReachesEnd v id ↔ n.Through v (n.ReachesEnd v) e.composition := by
  constructor
  · intro reaches
    cases reaches with
    | primitive found' composition =>
      obtain rfl := Except.ok.inj (found'.symm.trans found)
      rw [composition]
      trivial
    | series found' composition inside =>
      obtain rfl := Except.ok.inj (found'.symm.trans found)
      rcases composition with composition | composition <;> rwa [composition]
    | branching found' composition goes =>
      obtain rfl := Except.ok.inj (found'.symm.trans found)
      rwa [composition]
  · intro through
    cases composition : e.composition with
    | primitive => exact .primitive found composition
    | sequence ids =>
      rw [composition] at through
      exact .series found (.inl composition) through
    | parallel ids =>
      rw [composition] at through
      exact .series found (.inr composition) through
    | branching choice ids =>
      rw [composition] at through
      exact .branching found composition through

/-- What a composition is made of is there. -/
structure Supplies (n : Network) (composition : Composition) : Prop where
  children : ∀ child ∈ composition.episodes, ∃ f, n.episode child = .ok f
  choice : ∀ choice, composition.choice? = some choice → ∃ data, n.choice choice = .ok data

theorem Grows.isTerminal (step : Grows touched n m) (found : n.episode id = .ok e) :
    m.isTerminal id = n.isTerminal id := by
  obtain ⟨g, found'⟩ := step.episode found
  rw [isTerminal_eq found, isTerminal_eq found']

theorem Grows.picks_iff {choice : EventId} {ids : List EpisodeId} {data : Choice}
    (step : Grows touched n m) (chosen : n.choice choice = .ok data) :
    m.Picks v choice ids id ↔ n.Picks v choice ids id :=
  exists_congr fun _ => and_congr_left' (step.choice_iff (has_of_choice chosen))

theorem Grows.through_iff {inside inside' : EpisodeId → Prop} (step : Grows touched n m)
    (supplies : n.Supplies composition) (same : ∀ id ∈ composition.episodes, (inside' id ↔ inside id)) :
    m.Through v inside' composition ↔ n.Through v inside composition := by
  cases composition with
  | primitive => exact Iff.rfl
  | sequence ids | parallel ids => exact forall₂_congr same
  | branching choice ids =>
    obtain ⟨data, chosen⟩ := supplies.choice choice rfl
    have terminal {id : EpisodeId} (member : id ∈ ids) : m.isTerminal id = n.isTerminal id := by
      obtain ⟨f, found⟩ := supplies.children id member
      exact step.isTerminal found
    refine imp_congr (exists_congr fun id => and_congr_right fun member => ?_)
      (forall_congr' fun id => ?_)
    · rw [terminal member]
    · rw [step.picks_iff chosen]
      refine forall_congr' fun ⟨_, _, selected⟩ => ?_
      rw [terminal (List.of_mem_zip selected).2]

theorem Grows.hasBranches {terminal : Bool} (step : Grows touched n m)
    (supplies : n.Supplies composition) (branches : n.HasBranches composition terminal) :
    m.HasBranches composition terminal := by
  rintro choice ids rfl
  obtain ⟨⟨data, chosen, same⟩, goes⟩ := branches choice ids rfl
  refine ⟨⟨data, (step.choice_iff (has_of_choice chosen)).mpr chosen, same⟩, fun running => ?_⟩
  obtain ⟨child, member, goes⟩ := goes running
  obtain ⟨f, there⟩ := supplies.children child member
  exact ⟨child, member, (step.isTerminal there).trans goes⟩

theorem WellFormed.supplies (whole : n.WellFormed) (found : n.episode id = .ok e) :
    n.Supplies e.composition where
  children child inside := exists_episode
    (Nat.lt_trans ((whole.episode found).children child inside) (index_lt_size found))
  choice choice selects := ((whole.episode found).choice choice selects).2

/-- An old episode is got through as before. -/
theorem Grows.reachesEnd_iff (step : Grows touched n m) (whole : n.WellFormed)
    (found : n.episode id = .ok e) : m.ReachesEnd v id ↔ n.ReachesEnd v id := by
  obtain ⟨index⟩ := id
  induction index using Nat.strongRecOn generalizing e with
  | ind index ih =>
    obtain ⟨g, found'⟩ := step.episode found
    have supplies := whole.supplies found
    rw [Network.reachesEnd_iff found, Network.reachesEnd_iff found']
    refine step.through_iff supplies fun child inside => ?_
    obtain ⟨f, there⟩ := supplies.children child inside
    exact ih child.index ((whole.episode found).children child inside) there

/-! ## Episodes whose guards agree -/

/-- An episode, or an event that is no choice. Several compositions may have a choice in
common. -/
def Proper (n : Network) : Guarded → Prop
  | .episode _ => True
  | .event id => n.NoChoice id
  | .temporal _ | .state _ => False

theorem Grows.proper_iff (step : Grows touched n m) (there : n.Has x) :
    m.Proper x ↔ n.Proper x := by
  cases x with
  | episode | temporal | state => exact Iff.rfl
  | event id =>
    refine ⟨fun ⟨e, found, plain⟩ => ?_, fun plain => plain.grows step⟩
    obtain ⟨_, guarded⟩ := there
    obtain ⟨e', found', _⟩ := map_eq_ok_iff.mp guarded
    obtain ⟨g, same⟩ := step.event found'
    obtain rfl := Except.ok.inj (found.symm.trans same)
    exact ⟨e', found', plain⟩

/-- The end of an episode occurs exactly where the episode does and is got through, and
a branch of it where the episode does and selects the branch. -/
structure Coherent (n : Network) (v : Valuation V) (id : EpisodeId) (e : Episode) : Prop where
  /-- It is there. -/
  found : n.episode id = .ok e
  /-- Its end is no choice. -/
  plain : n.NoChoice e.finish
  /-- Where its end occurs. -/
  ends : n.Occurs v (.event e.finish) ↔ n.Occurs v (.episode id) ∧ n.ReachesEnd v id
  /-- Where its branches occur. -/
  selected : ∀ {choice ids}, e.composition = .branching choice ids → ∀ child ∈ ids,
    (n.Occurs v (.episode child) ↔ n.Occurs v (.episode id) ∧ n.Picks v choice ids child)
  /-- It has its branches. -/
  branches : n.HasBranches e.composition e.terminal

theorem mem_parts_self (found : n.episode id = .ok e) : Guarded.episode id ∈ n.parts id :=
  mem_parts_iff.mpr (.inl ((mem_ownParts_iff found).mpr (.inl rfl)))

/-- The episode and all inside it are coherent. -/
def Sound (n : Network) (v : Valuation V) (root : EpisodeId) : Prop :=
  ∀ id ∈ n.unfolding root, ∃ e, n.Coherent v id e

/-- An episode that is narrowed as a whole stays coherent. -/
theorem Coherent.moved {C : Prop} (h : n.Coherent v id e) (whole : n.WellFormed)
    (step : Grows touched n m)
    (finish : m.Occurs v (.event e.finish) ↔ n.Occurs v (.event e.finish) ∧ C)
    (episode : ∀ child, child = id ∨ child ∈ e.composition.episodes →
      (m.Occurs v (.episode child) ↔ n.Occurs v (.episode child) ∧ C)) :
    ∃ g, m.Coherent v id { e with guard := g } := by
  obtain ⟨g, found⟩ := step.episode h.found
  have branches : m.HasBranches e.composition e.terminal :=
    step.hasBranches (whole.supplies h.found) h.branches
  refine ⟨g, found, h.plain.grows step, ?_, fun {choice ids} is child member => ?_, branches⟩
  · rw [finish, h.ends, step.reachesEnd_iff whole h.found, episode id (.inl rfl)]
    exact and_right_comm
  · obtain ⟨⟨data, chosen, _⟩, _⟩ := h.branches _ _ is
    rw [episode child (.inr (by rwa [is])), h.selected is child member, episode id (.inl rfl),
      step.picks_iff chosen]
    exact and_right_comm

/-- What is narrowed as a whole stays sound. -/
theorem Sound.moved {C : Prop} {root : EpisodeId} (sound : n.Sound v root) (whole : n.WellFormed)
    (step : Grows touched n m)
    (moves : ∀ x ∈ n.parts root, n.Proper x → (m.Occurs v x ↔ n.Occurs v x ∧ C)) :
    m.Sound v root := by
  obtain ⟨_, first⟩ := sound root (mem_unfolding_self n root)
  intro id inside
  rw [step.unfolding first.found] at inside
  obtain ⟨e, coherent⟩ := sound id inside
  have own {id : EpisodeId} (inside : id ∈ n.unfolding root) {x : Guarded}
      (own : x ∈ n.ownParts id) : x ∈ n.parts root := List.mem_flatMap.mpr ⟨id, inside, own⟩
  have children := internalEpisodes_eq coherent.found (whole.episode coherent.found).children
  have episode {id : EpisodeId} (inside : id ∈ n.unfolding root) :
      m.Occurs v (.episode id) ↔ n.Occurs v (.episode id) ∧ C := by
    obtain ⟨f, there⟩ := exists_of_mem_unfolding first.found inside
    exact moves _ (own inside ((mem_ownParts_iff there).mpr (.inl rfl))) trivial
  obtain ⟨g, moved⟩ := coherent.moved whole step
    (moves _ (own inside ((mem_ownParts_iff coherent.found).mpr (by simp))) coherent.plain)
    fun child either => by
      rcases either with rfl | directly
      · exact episode inside
      · exact episode (mem_unfolding_of_mem_internalEpisodes inside (children ▸ directly))
  exact ⟨_, moved⟩

/-! ## Composing what is sound -/

/-- The episodes are sound, occur, and have nothing in common but choices. -/
structure Stands (n : Network) (v : Valuation V) (roots : List EpisodeId) : Prop where
  /-- What elements refer to is there. -/
  whole : n.WellFormed
  /-- The guards and choices are within the vocabulary. -/
  uses : n.Uses (Literal.Within V)
  /-- No episode is listed twice. -/
  distinct : roots.Nodup
  /-- They occur. -/
  always : ∀ root ∈ roots, n.Occurs v (.episode root)
  /-- They have nothing in common but choices. -/
  apart : ∀ a ∈ roots, ∀ b ∈ roots, a ≠ b → ∀ x, n.Proper x → x ∈ n.parts a → x ∉ n.parts b
  /-- They are coherent, and so is what is inside them. -/
  sound : ∀ root ∈ roots, n.Sound v root

theorem lets_congr {some some' : EpisodeId → Prop}
    (same : ∀ id ∈ composition.episodes, (some id ↔ some' id)) :
    n.Lets v some composition ↔ n.Lets v some' composition := by
  cases composition with
  | primitive | parallel => exact Iff.rfl
  | sequence ids =>
    exact List.Pairwise.iff_of_mem fun _ member => imp_congr_left (same _ member)
  | branching choice ids =>
    refine forall₂_congr fun data _ => forall₂_congr fun entry member => imp_congr_left ?_
    exact same entry.2 (List.of_mem_zip member).2

/-- What is inside none of the episodes is not affected. -/
theorem lets_of_not_mem (outside : id ∉ composition.episodes) :
    n.Lets v (· = id) composition := by
  have none : n.Lets v (fun _ => False) composition := by
    cases composition with
    | primitive | parallel => trivial
    | sequence ids => exact List.pairwise_of_forall_mem_list fun _ _ _ _ => False.elim
    | branching choice ids => exact fun _ _ _ _ => False.elim
  refine (lets_congr fun child inside => ?_).mpr none
  exact iff_false_intro fun same => outside (same ▸ inside)

/-- A branch goes on to occur where it is selected. -/
theorem lets_branching_iff {choice : EventId} {ids : List EpisodeId} {data : Choice}
    (once : ids.Nodup) (member : id ∈ ids) (chosen : n.choice choice = .ok data)
    (same : data.subject.arity = ids.length) :
    n.Lets v (· = id) (.branching choice ids) ↔ n.Picks v choice ids id := by
  constructor
  · intro lets
    obtain ⟨value, paired⟩ := exists_mem_zip same member
    have taken : v.value data.subject.key = value := lets data chosen _ paired rfl
    exact ⟨data, chosen, taken ▸ paired⟩
  · rintro ⟨data', chosen', selected⟩ data'' chosen'' ⟨value, child⟩ paired rfl
    obtain rfl := Except.ok.inj (chosen'.symm.trans chosen'')
    exact eq_of_mem_zip once selected paired

namespace Stands

variable {roots rest : List EpisodeId}

theorem exists_episode {root : EpisodeId} (stands : n.Stands v roots) (member : root ∈ roots) :
    ∃ e, n.Coherent v root e :=
  stands.sound root member root (mem_unfolding_self n root)

theorem parts_eq (stands : n.Stands v roots) (step : Grows touched n m) {root : EpisodeId}
    (member : root ∈ roots) : m.parts root = n.parts root := by
  obtain ⟨e, coherent⟩ := stands.exists_episode member
  exact step.parts coherent.found

theorem supplies (stands : n.Stands v roots) (makes : n.Makes m v id e)
    (among : ∀ child ∈ e.composition.episodes, child ∈ roots) : n.Supplies e.composition where
  children child inside := by
    obtain ⟨f, coherent⟩ := stands.exists_episode (among child inside)
    exact ⟨f, coherent.found⟩
  choice choice selects := by
    cases composition : e.composition with
    | primitive | sequence | parallel =>
      rw [composition] at selects
      cases selects
    | branching choice' ids =>
      rw [composition] at selects
      obtain rfl := Option.some.inj selects
      obtain ⟨⟨data, chosen, _⟩, _⟩ := makes.branches _ _ composition
      exact ⟨data, chosen⟩

/-- A composition narrows what is inside an episode as a whole. -/
theorem moves (stands : n.Stands v roots) (makes : n.Makes m v id e)
    (among : ∀ child ∈ e.composition.episodes, child ∈ roots) {root : EpisodeId}
    (member : root ∈ roots) : ∀ x ∈ n.parts root, n.Proper x →
      (m.Occurs v x ↔ n.Occurs v x ∧ n.Lets v (· = root) e.composition) := by
  intro x part proper
  rw [makes.kept (stands.whole.has_of_mem_parts part)]
  refine and_congr_right fun _ => lets_congr fun child inside => ⟨fun part' => ?_, ?_⟩
  · by_contra differ
    exact stands.apart child (among child inside) root member differ x proper part' part
  · rintro rfl
    exact part

/-- What a new episode is made of is new, or inside one of the episodes inside it, or a
choice. -/
theorem within (stands : n.Stands v roots) (makes : n.Makes m v id e)
    (among : ∀ child ∈ e.composition.episodes, child ∈ roots) (proper : m.Proper x)
    (part : x ∈ m.parts id) (old : n.Has x) : ∃ child ∈ e.composition.episodes, x ∈ n.parts child := by
  have supplies := stands.supplies makes among
  rcases mem_parts_iff.mp part with own | ⟨child, directly, part⟩
  · rcases (mem_ownParts_iff makes.found).mp own with rfl | rfl | rfl | rfl | ⟨_, _, _, rfl⟩
    · exact absurd old makes.new
    · rcases makes.opening with (⟨child, inside, f, found, same⟩ | ⟨new, _⟩) | selects
      · exact ⟨child, inside, same ▸ mem_parts_start found⟩
      · exact absurd old new
      · obtain ⟨data, chosen⟩ := supplies.choice _ selects
        exact absurd ((makes.grows.choice_iff old).mpr chosen) proper.choice_ne_ok
    · rcases makes.closing with ⟨child, inside, f, found, same⟩ | ⟨new, _⟩
      · exact ⟨child, inside, same ▸ mem_parts_finish found⟩
      · exact absurd old new
    · exact proper.elim
    · exact proper.elim
  · have inside := mem_episodes_of_mem_internalEpisodes makes.found directly
    obtain ⟨f, found⟩ := supplies.children child inside
    exact ⟨child, inside, makes.grows.parts found ▸ part⟩

/-- What is new leaves all that stood standing. -/
theorem furnished (stands : n.Stands v roots)
    (step : Tightened (fun _ => False) (fun _ => False) n m) (whole : m.WellFormed)
    (uses : m.Uses (Literal.Within V)) : m.Stands v roots := by
  have occurs {x : Guarded} (there : n.Has x) : m.Occurs v x ↔ n.Occurs v x :=
    step.occurs_iff not_false not_false there
  refine ⟨whole, uses, stands.distinct, fun root member => ?_,
    fun a first b second differ x proper part part' => ?_, fun root member => ?_⟩
  · have always := stands.always root member
    exact (occurs always.has).mpr always
  · rw [stands.parts_eq step.toGrows first] at part
    rw [stands.parts_eq step.toGrows second] at part'
    exact stands.apart a first b second differ x
      ((step.proper_iff (stands.whole.has_of_mem_parts part)).mp proper)
      part part'
  · refine (stands.sound root member).moved (C := True) stands.whole step.toGrows fun x part _ => ?_
    rw [occurs (stands.whole.has_of_mem_parts part), and_true]

section Composed

variable (stands : n.Stands v roots) (makes : n.Makes m v id e)
  (among : ∀ child ∈ e.composition.episodes, child ∈ roots)

include stands makes among

/-- The new episode ends where it is got through, and selects its branches. -/
theorem coherent (once : e.composition.episodes.Nodup) : m.Coherent v id e := by
  have supplies := stands.supplies makes among
  refine ⟨makes.found, ?_, ?_, fun {choice ids} is child inside => ?_,
    makes.grows.hasBranches supplies makes.branches⟩
  · rcases makes.closing with ⟨child, inside, f, found, same⟩ | ⟨_, plain⟩
    · obtain ⟨f', coherent⟩ := stands.exists_episode (among child inside)
      obtain rfl := Except.ok.inj (found.symm.trans coherent.found)
      exact same ▸ coherent.plain.grows makes.grows
    · exact plain
  · -- the episodes inside occur, so they end where they are got through
    have ending (child) (inside : child ∈ e.composition.episodes) :
        m.ReachesEnd v child ↔ n.Ends v child := by
      obtain ⟨f, coherent⟩ := stands.exists_episode (among child inside)
      rw [makes.grows.reachesEnd_iff stands.whole coherent.found, ends_iff coherent.found,
        coherent.ends, and_iff_right (stands.always child (among child inside))]
    rw [makes.ends, and_iff_right makes.always, reachesEnd_iff makes.found,
      makes.grows.through_iff supplies ending]
  · obtain ⟨⟨data, chosen, same⟩, _⟩ := makes.branches _ _ is
    have member : child ∈ roots := among child (by rwa [is])
    obtain ⟨f, coherent⟩ := stands.exists_episode member
    have lets : n.Lets v (· = child) e.composition ↔ n.Picks v choice ids child := by
      rw [is] at once ⊢
      exact lets_branching_iff once inside chosen same
    rw [stands.moves makes among member _ (mem_parts_self coherent.found) trivial, lets,
      makes.grows.picks_iff chosen, and_iff_right (stands.always child member),
      and_iff_right makes.always]

/-- What stood is sound, also if it is composed. -/
theorem sound_of_mem {root : EpisodeId} (member : root ∈ roots) : m.Sound v root :=
  (stands.sound root member).moved stands.whole makes.grows (stands.moves makes among member)

/-- The new episode has nothing in common with what is not inside it. -/
theorem apart_of_not_mem {root : EpisodeId} (member : root ∈ roots)
    (outside : root ∉ e.composition.episodes) (proper : m.Proper x) (part : x ∈ m.parts id) :
    x ∉ m.parts root := by
  intro part'
  rw [stands.parts_eq makes.grows member] at part'
  have old := stands.whole.has_of_mem_parts part'
  obtain ⟨child, inside, within⟩ := stands.within makes among proper part old
  have differ : child ≠ root := fun same => outside (same ▸ inside)
  exact stands.apart child (among child inside) root member differ x
    ((makes.grows.proper_iff old).mp proper) within part'

/-- A new episode stands in place of what is inside it. -/
theorem composed (whole : m.WellFormed) (uses : m.Uses (Literal.Within V))
    (once : e.composition.episodes.Nodup) :
    m.Stands v (id :: roots.filter (· ∉ e.composition.episodes)) := by
  have left {root : EpisodeId} (kept : root ∈ roots.filter (· ∉ e.composition.episodes)) :
      root ∈ roots ∧ root ∉ e.composition.episodes := by
    simpa using List.mem_filter.mp kept
  refine ⟨whole, uses, List.nodup_cons.mpr ⟨fun kept => ?_, stands.distinct.filter _⟩,
    List.forall_mem_cons.mpr ⟨makes.always, fun root kept => ?_⟩, ?_,
    List.forall_mem_cons.mpr ⟨?_, fun root kept => stands.sound_of_mem makes among (left kept).1⟩⟩
  · exact makes.new (stands.always id (left kept).1).has
  · obtain ⟨member, outside⟩ := left kept
    obtain ⟨f, coherent⟩ := stands.exists_episode member
    rw [stands.moves makes among member _ (mem_parts_self coherent.found) trivial]
    exact ⟨stands.always root member, lets_of_not_mem outside⟩
  · intro a first b second differ x proper part part'
    rcases List.mem_cons.mp first with isNew | kept <;>
      rcases List.mem_cons.mp second with isNew' | kept'
    · exact differ (isNew.trans isNew'.symm)
    · subst isNew
      obtain ⟨member, outside⟩ := left kept'
      exact stands.apart_of_not_mem makes among member outside proper part part'
    · subst isNew'
      obtain ⟨member, outside⟩ := left kept
      exact stands.apart_of_not_mem makes among member outside proper part' part
    · have member := (left kept).1
      have member' := (left kept').1
      rw [stands.parts_eq makes.grows member] at part
      rw [stands.parts_eq makes.grows member'] at part'
      have proper' := (makes.grows.proper_iff (stands.whole.has_of_mem_parts part)).mp proper
      exact stands.apart a member b member' differ x proper' part part'
  · intro inner inside
    rw [unfolding_eq] at inside
    rcases List.mem_cons.mp inside with rfl | inside
    · exact ⟨e, stands.coherent makes among once⟩
    · obtain ⟨child, directly, inside⟩ := List.mem_flatMap.mp inside
      have composed := mem_episodes_of_mem_internalEpisodes makes.found directly
      exact stands.sound_of_mem makes among (among child composed) inner inside

end Composed

end Stands

end Network

end PlanNetwork
