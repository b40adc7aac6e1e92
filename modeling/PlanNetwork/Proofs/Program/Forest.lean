/-
# The forest under construction

While trees are built from their leaves up, the episodes that have not been
composed yet are the roots of a forest. Every root is settled under the path
without choices, and no two roots have a part in common, so that composing some
of them does nothing to the others. All episodes are what was asked for and are
found by their ids.

If no id was taken at the start, none has been taken but those asked for and
those of old episodes.
-/

import PlanNetwork.Proofs.Program.Registration

namespace PlanNetwork

open Network

variable {p q : Program} {done rest : List Node} {node : Node} {id : EpisodeId} {e : Episode}

namespace Program

/-- Nothing has been built yet, and the user has put no constraints. -/
structure Blank (p : Program) : Prop where
  /-- Nothing is left to be undone. -/
  idle : p.network.journal = none
  /-- There are no episodes. -/
  episodes : p.network.episodes.size = 0
  /-- There are no constraints of the user. -/
  user : p.userConstraints = ∅

theorem blank_ofConfig (config : Config) : (ofConfig config).Blank := ⟨rfl, rfl, rfl⟩

end Program

/-- The calls so far have built a forest. -/
structure Forest (done : List Node) (p : Program) : Prop where
  /-- Nothing is left to be undone. -/
  idle : p.network.journal = none
  /-- Every call has made one episode. -/
  count : p.network.episodes.size = done.length
  /-- The roots can be composed. -/
  ready : ∀ id, IsRoot done id → p.network.Ready p.network.nextSerial id
  /-- The roots have no part in common. -/
  apart : ∀ a b, IsRoot done a → IsRoot done b → a ≠ b →
    ∀ element ∈ p.network.parts a, element ∉ p.network.parts b
  /-- Every episode is what its call asked for. -/
  answers : ∀ id node, done[id.index]? = some node →
    ∃ e, p.network.episode id = .ok e ∧ p.network.Answers e node
  /-- Every episode is found by its id. -/
  registered : ∀ id : EpisodeId, id.index < done.length → p.Registered id
  /-- There are no constraints of the user. -/
  user : p.userConstraints = ∅

theorem forest_nil (blank : p.Blank) : Forest [] p where
  idle := blank.idle
  count := blank.episodes
  ready := fun _ root => (Nat.not_lt_zero _ root.1).elim
  apart := fun _ _ root => (Nat.not_lt_zero _ root.1).elim
  answers := fun _ _ made => by simp at made
  registered := fun _ there => (Nat.not_lt_zero _ there).elim
  user := blank.user

/-! ## One more node -/

namespace Treelike

/-- What the next call composes are roots. -/
theorem isRoot_of_mem_children (tree : Treelike (done ++ node :: rest)) {child : EpisodeId}
    (member : child ∈ node.children) : IsRoot done child := by
  refine ⟨tree.older done.length node (by simp) child member, fun earlier => ?_⟩
  have once := tree.once
  rw [List.flatMap_append, List.flatMap_cons] at once
  have disjoint := (List.nodup_append.mp once).2.2
  exact disjoint child earlier child (List.mem_append_left _ member) rfl

theorem nodup_children (tree : Treelike (done ++ node :: rest)) : node.children.Nodup := by
  have once := tree.once
  rw [List.flatMap_append, List.flatMap_cons] at once
  exact (List.nodup_append.mp (List.nodup_append.mp once).2.1).1

/-- What has been composed is older than the next episode. -/
theorem index_lt_of_mem_children (tree : Treelike (done ++ rest)) {child : EpisodeId}
    (member : child ∈ done.flatMap Node.children) : child.index < done.length := by
  obtain ⟨earlier, made, inside⟩ := List.mem_flatMap.mp member
  obtain ⟨i, less, rfl⟩ := List.mem_iff_getElem.mp made
  have older := tree.older i done[i] (by rw [List.getElem?_append_left less]; simp) child inside
  exact Nat.lt_trans older less

/-- One more call that composes roots. -/
theorem append (tree : Treelike done) (roots : ∀ child ∈ node.children, IsRoot done child)
    (once : node.children.Nodup) : Treelike (done ++ [node]) := by
  refine ⟨fun i other made child inside => ?_, ?_⟩
  · rcases Nat.lt_trichotomy i done.length with earlier | rfl | beyond
    · rw [List.getElem?_append_left earlier] at made
      exact tree.older i other made child inside
    · rw [List.getElem?_concat_length] at made
      obtain rfl := Option.some.inj made
      exact (roots child inside).1
    · have less := (List.getElem?_eq_some_iff.mp made).1
      rw [List.length_append, List.length_singleton] at less
      omega
  · rw [List.flatMap_append, List.flatMap_singleton]
    refine List.nodup_append.mpr ⟨tree.once, once, ?_⟩
    rintro child earlier _ now rfl
    exact (roots child now).2 earlier

/-- The roots after one more call. -/
theorem isRoot_append_iff (tree : Treelike (done ++ node :: rest)) :
    IsRoot (done ++ [node]) id ↔ id = ⟨done.length⟩ ∨ IsRoot done id ∧ id ∉ node.children := by
  unfold IsRoot
  rw [List.length_append, List.flatMap_append, List.mem_append, List.flatMap_singleton, not_or]
  constructor
  · rintro ⟨less, earlier, now⟩
    rw [List.length_singleton] at less
    by_cases last : id.index = done.length
    · exact .inl (congrArg Handle.mk last)
    · exact .inr ⟨⟨by omega, earlier⟩, now⟩
  · rintro (rfl | ⟨⟨less, earlier⟩, now⟩)
    · refine ⟨by simp, fun earlier => ?_, fun now => ?_⟩
      · exact Nat.lt_irrefl _ (tree.index_lt_of_mem_children earlier)
      · exact Nat.lt_irrefl _ (tree.isRoot_of_mem_children now).1
    · exact ⟨by simp; omega, earlier, now⟩

end Treelike

/-- What there was of a new episode before was a part of an episode inside it. -/
theorem Program.Grown.within (grown : Program.Grown node p id e q)
    (there : ∀ child ∈ node.children, ∃ e, p.network.episode child = .ok e) {element : Guarded}
    (member : element ∈ q.network.parts id) (old : p.network.Has element) :
    ∃ child ∈ node.children, element ∈ p.network.parts child := by
  rcases mem_parts_iff.mp member with own | ⟨child, inside, part⟩
  · exact grown.made.within element own old
  · have among := mem_episodes_of_mem_internalEpisodes grown.made.owns.found inside
    rw [grown.answers.episodes_eq] at among
    obtain ⟨e, found⟩ := there child among
    rw [grown.made.grows.parts found] at part
    exact ⟨child, among, part⟩

namespace Forest

/-- What the next call composes is ready and has no part in common. -/
theorem composable (forest : Forest done p) (tree : Treelike (done ++ node :: rest)) :
    (∀ child ∈ node.children, p.network.Ready p.network.nextSerial child) ∧
      node.children.Pairwise fun a b =>
        ∀ element ∈ p.network.parts a, element ∉ p.network.parts b := by
  have roots {child : EpisodeId} (member : child ∈ node.children) :=
    tree.isRoot_of_mem_children member
  exact ⟨fun child member => forest.ready child (roots member), List.Pairwise.imp_of_mem
    (fun ha hb differ => forest.apart _ _ (roots ha) (roots hb) differ) tree.nodup_children⟩

/-- A root that is not composed has no part in common with what is. -/
theorem untouched {root : EpisodeId} (forest : Forest done p)
    (tree : Treelike (done ++ node :: rest)) (isRoot : IsRoot done root)
    (other : root ∉ node.children) :
    ∀ element ∈ p.network.parts root,
      ¬ ∃ child ∈ node.children, element ∈ p.network.parts child := by
  rintro element part ⟨child, inside, common⟩
  have differ : root ≠ child := fun same => other (same ▸ inside)
  exact forest.apart root child isRoot (tree.isRoot_of_mem_children inside) differ element part
    common

/-- Neither has it one in common with the new episode. -/
theorem separate {root : EpisodeId} (forest : Forest done p)
    (tree : Treelike (done ++ node :: rest)) (grown : Program.Grown node p id e q)
    (isRoot : IsRoot done root) (other : root ∉ node.children) :
    ∀ element ∈ p.network.parts root, element ∉ q.network.parts id := by
  intro element part member
  refine forest.untouched tree isRoot other element part (grown.within ?_ member ?_)
  · intro child inside
    exact (forest.ready child (tree.isRoot_of_mem_children inside)).exists_episode
  · exact (forest.ready root isRoot).has part

/-- Old episodes stay what they are, and the new one is what its call asked for. -/
theorem answers_append (forest : Forest done p) {last : EpisodeId}
    (at_end : last.index = done.length) (grown : Program.Grown node p last e q) {other : Node}
    (asked : (done ++ [node])[id.index]? = some other) :
    ∃ e, q.network.episode id = .ok e ∧ q.network.Answers e other := by
  by_cases earlier : id.index < done.length
  · rw [List.getElem?_append_left earlier] at asked
    obtain ⟨e', found, answers⟩ := forest.answers id other asked
    obtain ⟨g, found'⟩ := grown.made.grows.episode found
    exact ⟨_, found', answers.grows grown.made.grows g⟩
  · have less := (List.getElem?_eq_some_iff.mp asked).1
    rw [List.length_append, List.length_singleton] at less
    have same : id.index = last.index := by omega
    obtain rfl : id = last := congrArg Handle.mk same
    rw [at_end, List.getElem?_concat_length] at asked
    obtain rfl := Option.some.inj asked
    exact ⟨e, grown.made.owns.found, grown.answers⟩

/-- Old episodes are found by their ids, and so is the new one. -/
theorem registered_append (forest : Forest done p) {last : EpisodeId}
    (at_end : last.index = done.length) (grown : Program.Grown node p last e q)
    (there : id.index < (done ++ [node]).length) : q.Registered id := by
  by_cases earlier : id.index < done.length
  · obtain ⟨e', found, held⟩ := forest.registered id earlier
    obtain ⟨g, found'⟩ := grown.made.grows.episode found
    exact ⟨_, found', grown.older held⟩
  · rw [List.length_append, List.length_singleton] at there
    obtain rfl : id = last := congrArg Handle.mk (by omega)
    exact ⟨e, grown.made.owns.found, grown.registered⟩

/-- A call that makes one more episode leaves a forest behind. -/
theorem grow (forest : Forest done p) (tree : Treelike (done ++ node :: rest))
    (grown : Program.Grown node p id e q) :
    id = ⟨done.length⟩ ∧ Forest (done ++ [node]) q := by
  have grows := grown.made.grows
  have parts {root : EpisodeId} (isRoot : IsRoot done root) :
      q.network.parts root = p.network.parts root :=
    (forest.ready root isRoot).parts_eq grows
  obtain rfl : id = ⟨done.length⟩ :=
    congrArg Handle.mk (grown.made.handle.trans forest.count)
  refine ⟨rfl, grown.idle, ?_, ?_, ?_, fun made other => forest.answers_append rfl grown,
    fun _ there => forest.registered_append rfl grown there, grown.user.trans forest.user⟩
  · rw [grown.made.size, forest.count, List.length_append, List.length_singleton]
  · intro root isRoot
    rcases tree.isRoot_append_iff.mp isRoot with rfl | ⟨isRoot, other⟩
    · refine ⟨grown.made.settled, fun found => ?_⟩
      obtain rfl := Except.ok.inj (grown.made.owns.found.symm.trans found)
      exact grown.made.running
    · exact (forest.ready root isRoot).grows grows grows.serial
        (forest.untouched tree isRoot other)
  · intro a b isRoot isRoot' differ element part
    rcases tree.isRoot_append_iff.mp isRoot with rfl | ⟨isRoot, other⟩ <;>
      rcases tree.isRoot_append_iff.mp isRoot' with rfl | ⟨isRoot', other'⟩
    · exact (differ rfl).elim
    · rw [parts isRoot']
      exact fun part' => forest.separate tree grown isRoot' other' element part' part
    · rw [parts isRoot] at part
      exact forest.separate tree grown isRoot other element part
    · rw [parts isRoot] at part
      rw [parts isRoot']
      exact forest.apart a b isRoot isRoot' differ element part

end Forest

/-! ## Ids -/

/-- The id is one that was asked for, or one that an older episode can have got
by default. -/
def Taken (done : List Node) (nextSerial : Nat) (name : String) : Prop :=
  name ∈ done.filterMap Node.id? ∨
    ∃ serial < nextSerial, name = Identity.defaultId "Episode" serial

/-- Only such ids are found. -/
def Named (done : List Node) (p : Program) : Prop :=
  ∀ {name known}, p.registry.get? name = some known → Taken done p.network.nextSerial name

namespace Named

theorem ofConfig (config : Config) : Named [] (.ofConfig config) := by
  intro name known found
  cases OrdMap.get?_eq_some_iff.mp found

/-- Ids stay taken, and the new one is of the same form. -/
theorem grow (named : Named done p) (asked : node.given? = node.id?)
    (grown : Program.Grown node p id e q) : Named (done ++ [node]) q := by
  intro name known found
  rcases grown.newer found with rfl | held
  · obtain ⟨serial, _, less, named⟩ := grown.made.named
    rw [named, asked, Taken]
    cases given : node.id? with
    | none => exact .inr ⟨serial, less, rfl⟩
    | some name => exact .inl (by simp [given])
  · rw [Taken, List.filterMap_append, List.mem_append]
    refine (named held).imp .inl ?_
    rintro ⟨serial, less, named⟩
    exact ⟨serial, Nat.lt_of_lt_of_le less grown.made.grows.serial, named⟩

/-- The id of the next episode is free. -/
theorem get?_eq_none (named : Named done p) (bottomUp : BottomUp (done ++ node :: rest))
    {serial : Nat} (new : p.network.nextSerial ≤ serial) :
    p.registry.get? (node.given?.getD (Identity.defaultId "Episode" serial)) = none := by
  rw [(bottomUp.plain node (by simp)).given?_eq, Option.eq_none_iff_forall_ne_some]
  intro known found
  have asked : ∀ {name}, name ∈ done.filterMap Node.id? →
      name ∈ (done ++ node :: rest).filterMap Node.id? := by
    intro name among
    rw [List.filterMap_append]
    exact List.mem_append_left _ among
  cases given : node.id? with
  | none =>
    rw [given] at found
    rcases named found with among | ⟨old, less, named⟩
    · exact bottomUp.apart _ (asked among) serial rfl
    · have := Identity.eq_of_defaultId_eq named
      omega
  | some name =>
    rw [given] at found
    have listed : name ∈ (node :: rest).filterMap Node.id? := by simp [given]
    rcases named found with among | ⟨old, less, named⟩
    · have distinct := bottomUp.distinct
      rw [List.filterMap_append] at distinct
      exact (List.nodup_append.mp distinct).2.2 _ among _ listed rfl
    · refine bottomUp.apart name ?_ old named
      rw [List.filterMap_append]
      exact List.mem_append_right _ listed

/-- If nobody has asked for ids then those that come by default are free. -/
theorem get?_defaultId_eq_none (named : Named done p)
    (anonymous : ∀ node ∈ done, node.id? = none) {serial : Nat}
    (new : p.network.nextSerial ≤ serial) :
    p.registry.get? (Identity.defaultId "Episode" serial) = none := by
  rw [Option.eq_none_iff_forall_ne_some]
  intro known found
  rcases named found with among | ⟨old, less, same⟩
  · obtain ⟨node, member, asked⟩ := List.mem_filterMap.mp among
    cases (anonymous node member).symm.trans asked
  · have := Identity.eq_of_defaultId_eq same
    omega

end Named

end PlanNetwork
