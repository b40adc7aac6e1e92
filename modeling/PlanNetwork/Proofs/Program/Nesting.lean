/-
# How choices are nested

The calls that build a tree say which choices are inside the branches of which
others. A path leads to every episode of a tree, and no other one does, so the
nesting can be read off the paths: a choice is in a branch of another with no
choice in between if its path is that of the other one with the value behind it.

Paths with the same literals are the same, for a literal is about one choice and
there is one path to that.
-/

import Mathlib.Data.List.Infix
import Mathlib.Logic.Relation
import PlanNetwork.Proofs.Program.Activation
import PlanNetwork.Proofs.Program.PathConditions
import PlanNetwork.Proofs.Support.Cluster

namespace PlanNetwork

open Network

variable {nodes : List Node} {node : Node} {root id inner child : EpisodeId} {n : Network}
  {literals longer : List Literal} {subject other : ChoiceVariable} {value : String}

/-! ## The shape of a tree -/

/-- The episode is directly inside the other one. -/
def Contains (nodes : List Node) (id child : EpisodeId) : Prop :=
  ∃ node, nodes[id.index]? = some node ∧ child ∈ node.children

/-- The episode is directly inside the other one, and so is no choice. -/
def Enters (nodes : List Node) (id child : EpisodeId) : Prop :=
  ∃ node, nodes[id.index]? = some node ∧ node.domain? = none ∧ child ∈ node.children

/-- What is executed depends on a new choice between the values. -/
def Choosing (nodes : List Node) (id : EpisodeId) (domain : List String) : Prop :=
  ∃ node, nodes[id.index]? = some node ∧ node.domain? = some domain

/-- The episode is the branch that a value selects. -/
def Selects (nodes : List Node) (id : EpisodeId) (value : String) (child : EpisodeId) : Prop :=
  ∃ node domain, nodes[id.index]? = some node ∧ node.domain? = some domain ∧
    (value, child) ∈ domain.zip node.children

/-- An episode is in the tree of another one. -/
abbrev Within (nodes : List Node) : EpisodeId → EpisodeId → Prop :=
  Relation.ReflTransGen (Contains nodes)

/-- An episode is in the tree of another one, with no choice in between. -/
abbrev Beside (nodes : List Node) : EpisodeId → EpisodeId → Prop :=
  Relation.ReflTransGen (Enters nodes)

/-- What is in the tree of an episode is the episode, or in the tree of one that is directly
inside it. -/
theorem within_iff_of_made (made : nodes[id.index]? = some node) :
    Within nodes id inner ↔ inner = id ∨ ∃ child ∈ node.children, Within nodes child inner := by
  have contains (child : EpisodeId) : Contains nodes id child ↔ child ∈ node.children :=
    ⟨fun ⟨_, made', inside⟩ => Option.some.inj (made.symm.trans made') ▸ inside,
      fun inside => ⟨node, made, inside⟩⟩
  rw [Within, Relation.ReflTransGen.cases_head_iff, eq_comm (a := id)]
  simp only [contains]

namespace Treelike

/-- An episode is directly inside one other at most. -/
theorem parent_eq (tree : Treelike nodes) {a b : EpisodeId} {node' : Node}
    (made : nodes[a.index]? = some node) (made' : nodes[b.index]? = some node')
    (inside : child ∈ node.children) (inside' : child ∈ node'.children) : a = b ∧ node = node' := by
  obtain ⟨less, rfl⟩ := List.getElem?_eq_some_iff.mp made
  obtain ⟨less', rfl⟩ := List.getElem?_eq_some_iff.mp made'
  have apart := List.pairwise_iff_getElem.mp (List.nodup_flatMap.mp tree.once).2
  rcases Nat.lt_trichotomy a.index b.index with before | same | behind
  · exact (apart _ _ less less' before inside inside').elim
  · obtain rfl : a = b := congrArg Handle.mk same
    exact ⟨rfl, rfl⟩
  · exact (apart _ _ less' less behind inside' inside).elim

theorem children_nodup (tree : Treelike nodes) {i : Nat} (made : nodes[i]? = some node) :
    node.children.Nodup :=
  (List.nodup_flatMap.mp tree.once).1 node (List.mem_of_getElem? made)

end Treelike

theorem IsRoot.not_inside (isRoot : IsRoot nodes root) {i : Nat} (made : nodes[i]? = some node) :
    root ∉ node.children :=
  fun inside => isRoot.2 (List.mem_flatMap.mpr ⟨node, List.mem_of_getElem? made, inside⟩)

/-- In a list without repetitions an entry has one partner. -/
theorem eq_of_mem_zip {α β : Type} {left : List α} {right : List β} {a a' : α} {b : β}
    (once : right.Nodup) (first : (a, b) ∈ left.zip right) (second : (a', b) ∈ left.zip right) :
    a = a' := by
  obtain ⟨i, less, at_i⟩ := List.mem_iff_getElem.mp first
  obtain ⟨j, less', at_j⟩ := List.mem_iff_getElem.mp second
  rw [List.getElem_zip, Prod.mk.injEq] at at_i at_j
  rw [List.length_zip] at less less'
  obtain rfl : i = j := (List.Nodup.getElem_inj_iff once).mp (at_i.2.trans at_j.2.symm)
  exact at_i.1.symm.trans at_j.1

namespace Network

/-- The variable is that of a choice that the tree was built with. -/
def Chooses (n : Network) (nodes : List Node) (id : EpisodeId) (subject : ChoiceVariable) : Prop :=
  (∃ domain, Choosing nodes id domain) ∧ n.Decides id subject

/-- The event is the choice with which a composite of the tree starts. -/
def ChoiceOf (n : Network) (nodes : List Node) (id : EpisodeId) (event : EventId) : Prop :=
  (∃ domain, Choosing nodes id domain) ∧ ∃ e, n.episode id = .ok e ∧ e.start = event

/-- No two choices have the same variable. -/
def DistinctChoices (n : Network) (nodes : List Node) : Prop :=
  ∀ {a b : EpisodeId} {s t : ChoiceVariable}, n.Chooses nodes a s → n.Chooses nodes b t →
    s.key = t.key → a = b

/-! ## Paths -/

namespace Path

/-- A path goes on without a choice. -/
theorem beside (path : n.Path nodes root id literals) (inside : Beside nodes id inner) :
    n.Path nodes root inner literals := by
  induction inside with
  | refl => exact path
  | tail _ step ih =>
    obtain ⟨node, made, all, member⟩ := step
    exact ih.series made all member

/-- A path goes on into a branch. -/
theorem select (path : n.Path nodes root id literals) (decides : n.Decides id subject)
    (selects : Selects nodes id value child) :
    n.Path nodes root child (literals ++ [.is subject value]) := by
  obtain ⟨node, domain, made, one, member⟩ := selects
  exact path.branch made one decides member

/-- The last choice that a path passes, if it passes any. -/
theorem last_choice (path : n.Path nodes root id literals) :
    literals = [] ∧ Beside nodes root id ∨
      ∃ outer before subject value child, literals = before ++ [.is subject value] ∧
        n.Path nodes root outer before ∧ n.Decides outer subject ∧
        Selects nodes outer value child ∧ Beside nodes child id := by
  induction path with
  | root => exact .inl ⟨rfl, .refl⟩
  | series _ made all inside ih =>
    rcases ih with ⟨none, beside⟩ | ⟨outer, before, subject, value, child, last, path, decides,
      selects, beside⟩
    · exact .inl ⟨none, beside.tail ⟨_, made, all, inside⟩⟩
    · exact .inr ⟨outer, before, subject, value, child, last, path, decides, selects,
        beside.tail ⟨_, made, all, inside⟩⟩
  | branch path made one decides inside =>
    exact .inr ⟨_, _, _, _, _, rfl, path, decides, ⟨_, _, made, one, inside⟩, .refl⟩

/-- Every literal of a path is about a choice that it passes. -/
theorem exists_of_mem (path : n.Path nodes root id literals) {a : Literal} (member : a ∈ literals) :
    ∃ outer before after, literals = before ++ a :: after ∧ n.Path nodes root outer before ∧
      n.Chooses nodes outer a.choice := by
  induction path with
  | root => cases member
  | series _ _ _ _ ih => exact ih member
  | @branch _ _ _ _ _ value subject path made one decides _ ih =>
    rcases List.mem_append.mp member with early | last
    · obtain ⟨outer, before, after, rfl, path', chooses⟩ := ih early
      exact ⟨outer, before, after ++ [.is subject value], by simp, path', chooses⟩
    · obtain rfl := List.mem_singleton.mp last
      exact ⟨_, _, [], rfl, path, ⟨_, _, made, one⟩, decides⟩

/-- One path leads to an episode. -/
theorem unique (tree : Treelike nodes) (isRoot : IsRoot nodes root)
    (path : n.Path nodes root id literals) (path' : n.Path nodes root id longer) :
    literals = longer := by
  induction path generalizing longer with
  | root =>
    cases path' with
    | root => rfl
    | series _ made _ inside => exact (isRoot.not_inside made inside).elim
    | branch _ made _ _ inside => exact (isRoot.not_inside made (List.of_mem_zip inside).2).elim
  | series _ made all inside ih =>
    cases path' with
    | root => exact (isRoot.not_inside made inside).elim
    | series path' made' _ inside' =>
      obtain ⟨rfl, rfl⟩ := tree.parent_eq made made' inside inside'
      exact ih path'
    | branch path' made' one _ inside' =>
      obtain ⟨rfl, rfl⟩ := tree.parent_eq made made' inside (List.of_mem_zip inside').2
      cases all.symm.trans one
  | branch _ made one decides inside ih =>
    have among := (List.of_mem_zip inside).2
    cases path' with
    | root => exact (isRoot.not_inside made among).elim
    | series path' made' all inside' =>
      obtain ⟨rfl, rfl⟩ := tree.parent_eq made made' among inside'
      cases all.symm.trans one
    | branch path' made' one' decides' inside' =>
      obtain ⟨rfl, rfl⟩ := tree.parent_eq made made' among (List.of_mem_zip inside').2
      obtain rfl := Option.some.inj (one.symm.trans one')
      rw [ih path', decides.unique decides',
        eq_of_mem_zip (tree.children_nodup made) inside inside']

section Compare

variable (tree : Treelike nodes) (isRoot : IsRoot nodes root) (distinct : n.DistinctChoices nodes)
  (path : n.Path nodes root id literals)

include path distinct

/-- Literals of two paths that are about the same choice have the same variable. -/
theorem agree (path' : n.Path nodes root inner longer) : Hierarchy.Agree literals longer := by
  intro a member b member' same
  obtain ⟨outer, _, _, _, _, chooses⟩ := path.exists_of_mem member
  obtain ⟨outer', _, _, _, _, chooses'⟩ := path'.exists_of_mem member'
  obtain rfl := distinct chooses chooses' same
  exact chooses.2.unique chooses'.2

/-- A choice is in a branch of another, with no choice in between, if its path is
that of the other one with the value behind it. -/
theorem exists_selects_iff (chooses : n.Chooses nodes id subject) :
    (∃ child, Selects nodes id value child ∧ Beside nodes child inner) ↔
      n.Path nodes root inner (literals ++ [.is subject value]) := by
  constructor
  · rintro ⟨child, selects, beside⟩
    exact (path.select chooses.2 selects).beside beside
  · intro path'
    rcases path'.last_choice with ⟨none, _⟩ | ⟨outer, before, subject', value', child, last, path'',
      decides, selects, beside⟩
    · simp at none
    · obtain ⟨rfl, same⟩ := List.append_inj' last rfl
      obtain ⟨rfl, rfl⟩ : subject = subject' ∧ value = value' := by simpa [Literal.is] using same
      obtain ⟨node, domain, made, one, member⟩ := selects
      obtain rfl := distinct chooses ⟨⟨domain, node, made, one⟩, decides⟩ rfl
      exact ⟨child, ⟨node, domain, made, one, member⟩, beside⟩

include tree isRoot

/-- The path to a choice is where the paths begin that pass it. -/
theorem eq_append_of_mem (path' : n.Path nodes root inner longer) (chooses : n.Chooses nodes id subject)
    {a : Literal} (member : a ∈ longer) (about : a.choice.key = subject.key) :
    ∃ after, longer = literals ++ a :: after ∧ a.choice = subject := by
  obtain ⟨outer, before, after, rfl, path'', chooses'⟩ := path'.exists_of_mem member
  obtain rfl := distinct chooses' chooses about
  exact ⟨after, by rw [path''.unique tree isRoot path], chooses'.2.unique chooses.2⟩

/-- A path is where another begins if its literals are among those of the other. -/
theorem prefix_of_subset (path' : n.Path nodes root inner longer) (among : literals ⊆ longer) :
    literals <+: longer := by
  rcases path.last_choice with ⟨rfl, _⟩ | ⟨outer, before, subject, value, child, rfl, path'',
    decides, ⟨node, domain, made, one, _⟩, _⟩
  · exact List.nil_prefix
  · have last : Literal.is subject value ∈ longer := among (by simp)
    obtain ⟨after, rfl, _⟩ := path''.eq_append_of_mem tree isRoot distinct path'
      ⟨⟨domain, node, made, one⟩, decides⟩ last rfl
    exact ⟨after, by simp⟩

/-- The supports of two paths are the same only if the paths are. -/
theorem same_ofPath_iff (path' : n.Path nodes root inner longer) (isPath : IsPath literals)
    (isPath' : IsPath longer) :
    (Support.ofPath literals).same (.ofPath longer) = true ↔ literals = longer := by
  constructor
  · intro same
    have first := Hierarchy.subset_of_same isPath isPath' (path.agree distinct path') same
    have second := Hierarchy.subset_of_same isPath' isPath (path'.agree distinct path)
      (Support.same_comm.mp same)
    exact (path.prefix_of_subset tree isRoot distinct path' first).eq_of_length_le
      (path'.prefix_of_subset tree isRoot distinct path second).length_le
  · rintro rfl
    exact Support.same_refl _

/-- A literal of a choice separates the path to it from that path with the
literal behind it, and from no other one. -/
theorem separating_iff (path' : n.Path nodes root inner longer) (isPath : IsPath literals)
    (isPath' : IsPath longer) (chooses : n.Chooses nodes id subject) {a : Literal} :
    Hierarchy.separating? subject (.ofList literals) (.ofList longer) = some a ↔
      longer = literals ++ [a] ∧ a.choice = subject := by
  rw [Hierarchy.separating?_eq_some_iff isPath isPath' (path.agree distinct path')]
  constructor
  · rintro ⟨_, only, about⟩
    obtain ⟨member, _⟩ := (only a).mpr rfl
    obtain ⟨after, rfl, same⟩ := path.eq_append_of_mem tree isRoot distinct path' chooses member about
    refine ⟨?_, same⟩
    -- what came behind the literal would be another one that the path has more
    have once := isPath'.nodup
    cases after with
    | nil => rfl
    | cons b rest =>
      have later : b ∈ literals ++ a :: b :: rest ∧ b ∉ literals := by
        refine ⟨by simp, fun early => ?_⟩
        exact (List.nodup_append.mp once).2.2 b early b (by simp) rfl
      obtain rfl := (only b).mp later
      exact (List.nodup_cons.mp (List.nodup_append.mp once).2.1).1 (List.mem_cons_self ..) |>.elim
  · rintro ⟨rfl, rfl⟩
    refine ⟨List.subset_append_left _ _, fun b => ?_, rfl⟩
    have new : a ∉ literals := fun early =>
      (List.nodup_append.mp isPath'.nodup).2.2 a early a (List.mem_singleton.mpr rfl) rfl
    constructor
    · rintro ⟨member, late⟩
      exact List.mem_singleton.mp ((List.mem_append.mp member).resolve_left late)
    · rintro rfl
      exact ⟨by simp, new⟩

end Compare

/-- A choice is in no branch of another if its path is empty. -/
theorem beside_iff : Beside nodes root id ↔ n.Path nodes root id [] := by
  refine ⟨fun beside => Path.root.beside beside, fun path => ?_⟩
  rcases path.last_choice with ⟨_, beside⟩ | ⟨_, _, _, _, _, last, _⟩
  · exact beside
  · simp at last

end Path

end Network

end PlanNetwork
