/-
# Supports are path conditions

When a tree has been built, an episode in it, with its events and its duration,
exists exactly where the choices on the way from the root to it take the values
that lead there. Its internal constraints apply under the same condition, except
for the links of a branch, which are behind the value of the branch as well.

Nothing is assumed about the shape of the tree, about where the events at the
ends of a sequence come from, or about the gaps in it.
-/

import PlanNetwork.Proofs.Program.Forest

namespace PlanNetwork

open Network

variable {p q : Program} {nodes done rest : List Node} {node : Node} {id root child : EpisodeId}
  {e : Episode} {n : Network} {bound : Nat} {literals : List Literal}

/-! ## Every call succeeds -/

/-- A call succeeds on a forest and leaves a forest behind. -/
theorem Forest.yields_call (forest : Forest done p) (named : Named done p)
    (bottomUp : BottomUp (done ++ node :: rest)) :
    node.call.Yields p fun id q =>
      id = ⟨done.length⟩ ∧ Forest (done ++ [node]) q ∧ Named (done ++ [node]) q := by
  have tree := bottomUp.treelike
  have plain := bottomUp.plain node (by simp)
  obtain ⟨ready, apart⟩ := forest.composable tree
  refine (Node.yields_call forest.idle ready apart plain
    (fun serial new => named.get?_eq_none bottomUp new)).mono fun id q ⟨e, grown⟩ => ?_
  obtain ⟨last, forest'⟩ := forest.grow tree grown
  exact ⟨last, forest', named.grow plain.given?_eq grown⟩

/-- All calls succeed, and each returns the handle with its number. -/
theorem Forest.yields_all (forest : Forest done p) (named : Named done p)
    (bottomUp : BottomUp (done ++ rest)) :
    (Build.all rest).Yields p fun ids q =>
      ids = (List.range' done.length rest.length).map Handle.mk ∧ Forest (done ++ rest) q := by
  induction rest generalizing done p with
  | nil =>
    rw [List.append_nil]
    exact Attempt.yields_pure ⟨rfl, forest⟩
  | cons node rest ih =>
    refine (forest.yields_call named bottomUp).bind ?_
    rintro _ k ⟨rfl, grown, named'⟩
    have remaining : done ++ node :: rest = (done ++ [node]) ++ rest := by simp
    rw [remaining] at bottomUp ⊢
    refine (ih grown named' bottomUp).bind ?_
    rintro _ q ⟨rfl, forest'⟩
    refine Attempt.yields_pure ⟨?_, forest'⟩
    rw [List.length_append, List.length_singleton, List.length_cons, List.range'_succ]
    rfl

/-! ## Down the paths -/

namespace Network

/-- What is inside a composite whose episodes are all executed is settled under
the same path. -/
theorem Settled.into_series (settled : n.Settled bound id literals) (found : n.episode id = .ok e)
    (answers : n.Answers e node) (all : node.domain? = none) (inside : child ∈ node.children) :
    n.Settled bound child literals := by
  rw [← answers.episodes_eq] at inside
  cases settled with
  | primitive _ owns composition =>
    obtain rfl := Except.ok.inj (owns.found.symm.trans found)
    rw [composition] at inside
    cases inside
  | series _ owns composition _ _ within =>
    obtain rfl := Except.ok.inj (owns.found.symm.trans found)
    refine within child ?_
    rcases composition with composition | composition <;> rwa [composition] at inside
  | branching _ owns composition =>
    obtain rfl := Except.ok.inj (owns.found.symm.trans found)
    cases node with
    | leaf | sequence | parallel => cases composition.symm.trans answers
    | decide | observe => cases all

/-- What is said of an episode when the condition under which it exists is that
of a path. -/
structure Conditioned (n : Network) (node : Node) (id : EpisodeId) (literals : List Literal)
    (e : Episode) : Prop where
  /-- The episode, its events and its duration have the support of the path. -/
  owns : n.Owns id e (.ofPath literals)
  /-- The episode is what was asked for. -/
  answers : n.Answers e node
  /-- If all that is inside is executed, the constraints have the same support. -/
  constraints : node.domain? = none → e.isPrimitive = false →
    ∀ c ∈ e.constraints.toList, n.support (.temporal c) = .ok (.ofPath literals)
  /-- If there is a choice, the constraints are two for each branch, and these
  have the value of the branch in their support as well. -/
  links : ∀ domain, node.domain? = some domain → ∃ subject links, n.Decides id subject ∧
    subject.domain = domain ∧ links.length = node.children.length ∧
    e.constraints = .ofList (flatLinks links) ∧
    ∀ pair ∈ (domain.zip node.children).zip links, n.Branches e.start e.finish
      (.ofPath (literals ++ [.is subject pair.1.1])) pair.1.2 pair.2

/-- A settled choice is between the values that were asked for. -/
theorem Settled.branching_of_answers {domain : List String}
    (settled : n.Settled bound id literals) (found : n.episode id = .ok e)
    (answers : n.Answers e node) (one : node.domain? = some domain) :
    ∃ subject links, n.Decides id subject ∧ subject.domain = domain ∧
      domain.length = node.children.length ∧ links.length = node.children.length ∧
      e.constraints = .ofList (flatLinks links) ∧
      (∀ pair ∈ (domain.zip node.children).zip links, n.Branches e.start e.finish
        (.ofPath (literals ++ [.is subject pair.1.1])) pair.1.2 pair.2) ∧
      ∀ branch ∈ domain.zip node.children,
        n.Settled bound branch.2 (literals ++ [.is subject branch.1]) := by
  obtain ⟨composed, serial, event, c, there, carried, _, same⟩ :
      e.composition = .branching e.start node.children ∧
        ∃ serial, n.IsChoice e.start domain serial := by
    cases node with
    | leaf | sequence | parallel => cases one
    | decide | observe =>
      cases one
      exact answers
  have decides : n.Decides id c.subject := ⟨e, c, found, choice_eq_ok_iff.mpr ⟨event, there, carried⟩, rfl⟩
  cases settled with
  | primitive _ owns composition =>
    obtain rfl := Except.ok.inj (owns.found.symm.trans found)
    cases composition.symm.trans composed
  | series _ owns composition =>
    obtain rfl := Except.ok.inj (owns.found.symm.trans found)
    rcases composition with composition | composition <;> cases composition.symm.trans composed
  | branching _ owns composition decided carried' covered paired constraints linked _ within =>
    obtain rfl := Except.ok.inj (owns.found.symm.trans found)
    obtain rfl := Except.ok.inj (decided.symm.trans there)
    obtain rfl := Option.some.inj (carried'.symm.trans carried)
    cases composition.symm.trans composed
    subst same
    exact ⟨_, _, decides, rfl, covered, paired, constraints, linked, within⟩

theorem Decides.unique {subject other : ChoiceVariable} (decides : n.Decides id subject)
    (again : n.Decides id other) : subject = other := by
  obtain ⟨e, c, found, carried, rfl⟩ := decides
  obtain ⟨e', c', found', carried', rfl⟩ := again
  obtain rfl := Except.ok.inj (found.symm.trans found')
  obtain rfl := Except.ok.inj (carried.symm.trans carried')
  rfl

/-- What is said of a settled episode under the path to it. -/
theorem Settled.conditioned (settled : n.Settled bound id literals)
    (found : n.episode id = .ok e) (answers : n.Answers e node) :
    n.Conditioned node id literals e := by
  obtain ⟨e', owns⟩ := settled.owns
  obtain rfl := Except.ok.inj (owns.found.symm.trans found)
  refine ⟨owns, answers, fun all composite => ?_, fun domain one => ?_⟩
  · cases settled with
    | primitive _ owns composition =>
      obtain rfl := Except.ok.inj (owns.found.symm.trans found)
      rw [Episode.isPrimitive, composition] at composite
      cases composite
    | series _ owns _ constraints =>
      obtain rfl := Except.ok.inj (owns.found.symm.trans found)
      exact constraints
    | branching _ owns composition =>
      obtain rfl := Except.ok.inj (owns.found.symm.trans found)
      cases node with
      | leaf | sequence | parallel => cases composition.symm.trans answers
      | decide | observe => cases all
  · obtain ⟨subject, links, decides, same, _, paired, constraints, linked, _⟩ :=
      settled.branching_of_answers found answers one
    exact ⟨subject, links, decides, same, paired, constraints, linked⟩

end Network

namespace Forest

/-- What a path leads to is settled under it. -/
theorem settled (forest : Forest nodes p) (isRoot : IsRoot nodes root)
    (path : p.network.Path nodes root id literals) :
    p.network.Settled p.network.nextSerial id literals := by
  induction path with
  | root => exact (forest.ready root isRoot).settled
  | series _ made all inside ih =>
    obtain ⟨e, found, answers⟩ := forest.answers _ _ made
    exact ih.into_series found answers all inside
  | branch _ made one decides inside ih =>
    obtain ⟨e, found, answers⟩ := forest.answers _ _ made
    obtain ⟨subject, links, decides', _, _, _, _, _, within⟩ :=
      ih.branching_of_answers found answers one
    rw [decides.unique decides']
    exact within _ inside

/-- A path can be extended to whatever is directly inside the episode it leads to. -/
theorem path_into (forest : Forest nodes p) (isRoot : IsRoot nodes root)
    (path : p.network.Path nodes root id literals) (made : nodes[id.index]? = some node)
    (inside : child ∈ node.children) :
    ∃ literals, p.network.Path nodes root child literals := by
  cases one : node.domain? with
  | none => exact ⟨literals, path.series made one inside⟩
  | some domain =>
    obtain ⟨e, found, answers⟩ := forest.answers id node made
    obtain ⟨subject, _, decides, _, covered, _⟩ :=
      (forest.settled isRoot path).branching_of_answers found answers one
    obtain ⟨value, branch⟩ := exists_mem_zip covered inside
    exact ⟨_, path.branch made one decides branch⟩

/-- A path leads to every episode. -/
theorem exists_path (forest : Forest nodes p) (tree : Treelike nodes) (id : EpisodeId)
    (there : id.index < nodes.length) :
    ∃ root literals, IsRoot nodes root ∧ p.network.Path nodes root id literals := by
  -- a path to whatever the episode is in has been found before, for that is newer
  by_cases isRoot : IsRoot nodes id
  · exact ⟨id, [], isRoot, .root⟩
  · have composed : id ∈ nodes.flatMap Node.children := by
      by_contra never
      exact isRoot ⟨there, never⟩
    obtain ⟨node, member, inside⟩ := List.mem_flatMap.mp composed
    obtain ⟨i, less, rfl⟩ := List.mem_iff_getElem.mp member
    have made : nodes[i]? = some nodes[i] := List.getElem?_eq_getElem less
    have older := tree.older i nodes[i] made id inside
    obtain ⟨root, literals, isRoot, path⟩ := forest.exists_path tree ⟨i⟩ less
    obtain ⟨literals, path⟩ := forest.path_into isRoot path made inside
    exact ⟨root, literals, isRoot, path⟩
termination_by nodes.length - id.index

end Forest

namespace Program

/-- Supports are path conditions. From a program without elements, all calls
that build some trees from their leaves up succeed, whatever the configuration.
Then a path leads to every episode from the root of its tree, and the support of
the episode, of its events, of its duration and of its internal constraints is
that of the path, where the two links of a branch have the value of the branch
behind it. -/
theorem supports_are_path_conditions {config : Config} (valid : Program.new config = .ok p)
    (bottomUp : BottomUp nodes) :
    (Build.all nodes).Yields p fun ids q => ids = (List.range nodes.length).map Handle.mk ∧
      ∀ id node, nodes[id.index]? = some node →
        (∃ root literals, IsRoot nodes root ∧ q.network.Path nodes root id literals) ∧
        ∀ root literals, IsRoot nodes root → q.network.Path nodes root id literals →
          ∃ e, q.network.Conditioned node id literals e := by
  obtain ⟨_, _, rfl⟩ := Network.map_eq_ok_iff.mp valid
  refine ((forest_nil (blank_ofConfig config)).yields_all (Named.ofConfig config) bottomUp).mono
    fun ids q ⟨handles, forest⟩ => ?_
  refine ⟨by rwa [List.range_eq_range'], fun id node made => ⟨?_, ?_⟩⟩
  · exact forest.exists_path bottomUp.treelike id (List.getElem?_eq_some_iff.mp made).1
  · intro root literals isRoot path
    obtain ⟨e, found, answers⟩ := forest.answers id node made
    exact ⟨e, (forest.settled isRoot path).conditioned found answers⟩

/-- A leaf behind a decision between two leaves. -/
def leafBehindDecision : List Node :=
  [.leaf {}, .leaf {}, .decide { domain := ["A", "B"] } [⟨0⟩, ⟨1⟩] {}, .leaf {},
    .sequence [⟨2⟩, ⟨3⟩] {}]

theorem bottomUp_leafBehindDecision : BottomUp leafBehindDecision := by
  have options := CompositionOptions.plain_default
  have leaf := EpisodeSpec.plain_default
  refine ⟨?_, ?_, by decide, by decide, nofun⟩
  · simp only [leafBehindDecision, List.forall_mem_cons]
    refine ⟨leaf, leaf, ⟨.inl rfl, ⟨by decide, by decide, rfl, rfl⟩, rfl, options⟩, leaf,
      ⟨by decide, options⟩, List.forall_mem_nil _⟩
  · intro i node made child inside
    match i with
    | 0 | 1 | 3 => cases made; cases inside
    | 2 | 4 =>
      cases made
      simp only [Node.children, List.mem_cons, List.not_mem_nil, or_false] at inside
      rcases inside with rfl | rfl <;> decide

/-- The second of the leaves that are decided between exists where the decision
is for the second value. -/
theorem supports_are_path_conditions_second_value :
    Program.new {} = .ok (.ofConfig {}) ∧ BottomUp leafBehindDecision ∧
      (Build.all leafBehindDecision).Yields (.ofConfig {}) fun ids q =>
        ids = [⟨0⟩, ⟨1⟩, ⟨2⟩, ⟨3⟩, ⟨4⟩] ∧ ∃ subject e, q.network.Decides ⟨2⟩ subject ∧
          q.network.Conditioned (.leaf {}) ⟨1⟩ [.is subject "B"] e := by
  have valid : Program.new {} = .ok (.ofConfig {}) := by
    have positive : Number.zero.lt defaultTolerance = true := by decide +kernel
    have differ : ("RUN" : String) ≠ "STOP" := by decide
    simp only [Program.new, Config.validate, positive, Bool.not_true, Bool.false_eq_true, if_false,
      differ, Except.map]
  refine ⟨valid, bottomUp_leafBehindDecision, ?_⟩
  refine (supports_are_path_conditions valid bottomUp_leafBehindDecision).mono
    fun ids q ⟨handles, conditions⟩ => ⟨handles, ?_⟩
  have isRoot : IsRoot leafBehindDecision ⟨4⟩ := ⟨by decide, by decide⟩
  have path : q.network.Path leafBehindDecision ⟨4⟩ ⟨2⟩ [] := .series .root rfl rfl (by decide)
  obtain ⟨e, decision⟩ := (conditions ⟨2⟩ _ rfl).2 ⟨4⟩ [] isRoot path
  obtain ⟨subject, _, decides, _⟩ := decision.links _ rfl
  have second : ("B", (⟨1⟩ : EpisodeId)) ∈ ["A", "B"].zip [⟨0⟩, ⟨1⟩] := by decide
  obtain ⟨e', conditioned⟩ := (conditions ⟨1⟩ _ rfl).2 ⟨4⟩ _ isRoot
    (path.branch rfl rfl decides second)
  exact ⟨subject, e', decides, conditioned⟩

end Program

end PlanNetwork
