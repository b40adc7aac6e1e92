/-
# The hierarchy of a tree

When a tree is the plan, its hierarchy of choices is as the choices are nested in
the tree. The supports of the choices are those of the paths to them, and there is
one path to each. So a cluster has the choices that are on the same path, and one
step from a choice leads to the clusters that are behind a value of it.

The first cluster is the one on the empty path, for the first choice that a path
passes is on it.
-/

import PlanNetwork.Proofs.Program.Survey

namespace PlanNetwork

open Network

variable {p q : Program} {nodes : List Node} {root id inner : EpisodeId} {n m : Network}
  {event : EventId} {literals longer : List Literal} {subject : ChoiceVariable} {value : String}
  {entries : List Hierarchy.Entry} {entry : Hierarchy.Entry} {step : Step} {members : List EventId}
  {h : Hierarchy}

/-- The hierarchy is as the choices of a tree are nested. -/
structure Hierarchy.Reflects (h : Hierarchy) (n : Network) (nodes : List Node)
    (root : EpisodeId) : Prop where
  /-- The choices that can be faced at once are those in no branch of another. -/
  initial : ∀ event, event ∈ h.initial ↔ ∃ id, Beside nodes root id ∧ n.ChoiceOf nodes id event
  /-- None of them is there twice. -/
  initial_nodup : h.initial.Nodup
  /-- A value of a choice activates the choices in its branch with no other choice
  in between. -/
  activated : ∀ id event subject value, Within nodes root id → n.ChoiceOf nodes id event →
    n.Decides id subject → ∀ inner, inner ∈ h.activated event (.is subject value) ↔
      ∃ child id', Selects nodes id value child ∧ Beside nodes child id' ∧
        n.ChoiceOf nodes id' inner
  /-- None of them is there twice. -/
  activated_nodup : ∀ event literal, (h.activated event literal).Nodup
  /-- Nothing is entered but the values of choices that activate something. -/
  entered : ∀ event steps, h.activation.get? event = some steps →
    (∃ step members, steps.get? step = some members) ∧
      ∀ step members, steps.get? step = some members → members ≠ [] ∧
        ∃ id subject, Within nodes root id ∧ n.ChoiceOf nodes id event ∧ n.Decides id subject ∧
          ∃ value ∈ subject.domain, step = .ofLiteral (.is subject value)

namespace Network

namespace Path

/-- What a path leads to is in the tree. -/
theorem within (path : n.Path nodes root id literals) : Within nodes root id := by
  induction path with
  | root => exact .refl
  | series _ made _ inside ih => exact ih.tail ⟨_, made, inside⟩
  | branch _ made _ _ inside ih => exact ih.tail ⟨_, made, (List.of_mem_zip inside).2⟩

/-- The first choice that a path passes is on the empty path. -/
theorem exists_first (path : n.Path nodes root id literals) (passes : literals ≠ []) :
    ∃ outer domain, n.Path nodes root outer [] ∧ Choosing nodes outer domain := by
  induction path with
  | root => exact (passes rfl).elim
  | series _ _ _ _ ih => exact ih passes
  | @branch _ _ before _ domain _ _ path made one _ _ ih =>
    by_cases first : before = []
    · subst first
      exact ⟨_, domain, path, _, made, one⟩
    · exact ih first

end Path

/-- The choice at the start of a composite is of this composite only. -/
theorem ChoiceOf.unique (distinct : n.DistinctChoices nodes) (chooses : n.Chooses nodes id subject)
    (first : n.ChoiceOf nodes id event) (second : n.ChoiceOf nodes inner event) : id = inner := by
  obtain ⟨choosing, decides⟩ := chooses
  obtain ⟨_, e, found, rfl⟩ := first
  obtain ⟨choosing', e', found', same⟩ := second
  obtain ⟨f, c, there, chosen, rfl⟩ := decides
  obtain rfl := Except.ok.inj (found.symm.trans there)
  exact distinct ⟨choosing, e, c, found, chosen, rfl⟩
    ⟨choosing', e', c, found', same ▸ chosen, rfl⟩ rfl

namespace Located

theorem choiceOf (located : n.Located nodes root entry id literals) :
    n.ChoiceOf nodes id entry.event := ⟨⟨_, located.choosing⟩, located.starts⟩

theorem chooses (located : n.Located nodes root entry id literals) :
    n.Chooses nodes id entry.subject := ⟨⟨_, located.choosing⟩, located.decides⟩

end Located

/-! ## Clusters are paths -/

/-- The choices as they are grouped. -/
def elements (entries : List Hierarchy.Entry) : List (EventId × Support) :=
  entries.map fun entry => (entry.event, entry.support)

namespace Surveys

variable (surveys : n.Surveys nodes root entries) (tree : Treelike nodes)
  (isRoot : IsRoot nodes root) (distinct : n.DistinctChoices nodes)

include surveys

theorem having_nodup (s : Support) : (Cluster.having (elements entries) s).Nodup := by
  have all : (elements entries).map (·.1) = entries.map (·.event) := by
    simp [elements]
  have among : (Cluster.having (elements entries) s).Sublist ((elements entries).map (·.1)) :=
    List.filter_sublist.map _
  exact among.nodup (all ▸ surveys.once)

theorem eq_of_event_eq {other : Hierarchy.Entry} (member : entry ∈ entries)
    (member' : other ∈ entries) (same : entry.event = other.event) : entry = other :=
  List.inj_on_of_nodup_map surveys.once member member' same

include distinct

/-- Every choice of a composite in the tree is known, with the path to that. -/
theorem exists_located (within : Within nodes root id) (chooses : n.Chooses nodes id subject)
    (choiceOf : n.ChoiceOf nodes id event) : ∃ entry ∈ entries, entry.event = event ∧
      entry.subject = subject ∧ ∃ literals, n.Located nodes root entry id literals := by
  obtain ⟨⟨domain, choosing⟩, e, found, rfl⟩ := choiceOf
  obtain ⟨entry, member, _, e', found', same⟩ := surveys.complete id domain within choosing
  obtain rfl := Except.ok.inj (found.symm.trans found')
  obtain ⟨inner, literals, located⟩ := surveys.located entry member
  obtain rfl := ChoiceOf.unique distinct located.chooses located.choiceOf
    ⟨⟨domain, choosing⟩, e, found, same⟩
  exact ⟨entry, member, same.symm, located.decides.unique chooses.2, literals, located⟩

include tree isRoot

/-- The elements with the support of a path are the choices on it. -/
theorem mem_having_iff (path : n.Path nodes root id literals) (isPath : IsPath literals) :
    event ∈ Cluster.having (elements entries) (.ofPath literals) ↔
      ∃ inner, n.Path nodes root inner literals ∧ n.ChoiceOf nodes inner event := by
  simp only [Cluster.having, elements, List.filter_map, List.map_map, List.mem_map,
    List.mem_filter, Function.comp_apply]
  constructor
  · rintro ⟨entry, ⟨member, same⟩, rfl⟩
    obtain ⟨inner, longer, located⟩ := surveys.located entry member
    rw [located.support] at same
    obtain rfl := (path.same_ofPath_iff tree isRoot distinct located.path isPath
      located.isPath).mp same
    exact ⟨inner, located.path, located.choiceOf⟩
  · rintro ⟨inner, path', choiceOf⟩
    obtain ⟨⟨domain, choosing⟩, e, found, rfl⟩ := choiceOf
    obtain ⟨entry, member, _, e', found', same⟩ := surveys.complete inner domain path'.within choosing
    obtain rfl := Except.ok.inj (found.symm.trans found')
    obtain ⟨inner', longer, located⟩ := surveys.located entry member
    obtain rfl := ChoiceOf.unique distinct located.chooses located.choiceOf
      ⟨⟨domain, choosing⟩, e, found, same⟩
    obtain rfl := located.path.unique tree isRoot path'
    refine ⟨entry, ⟨member, ?_⟩, same.symm⟩
    rw [located.support]
    exact Support.same_refl _

end Surveys

/-- A path that leads to a choice passes no choice twice. -/
theorem Surveys.isPath (surveys : n.Surveys nodes root entries) (tree : Treelike nodes)
    (isRoot : IsRoot nodes root) (distinct : n.DistinctChoices nodes)
    (path : n.Path nodes root id literals) (choiceOf : n.ChoiceOf nodes id event) :
    IsPath literals := by
  obtain ⟨domain, choosing⟩ := choiceOf.1
  obtain ⟨entry, known, choiceOf'⟩ := surveys.complete id domain path.within choosing
  obtain ⟨inner, longer, located⟩ := surveys.located entry known
  obtain rfl := ChoiceOf.unique distinct located.chooses located.choiceOf choiceOf'
  obtain rfl := located.path.unique tree isRoot path
  exact located.isPath

/-- A cluster has the support of a path that leads to a choice. -/
theorem Surveys.exists_path (surveys : n.Surveys nodes root entries)
    {clusters : List (Cluster EventId)} (groups : Cluster.Groups (elements entries) clusters)
    {cluster : Cluster EventId} (among : cluster ∈ clusters) :
    ∃ id literals, n.Path nodes root id literals ∧ IsPath literals ∧
      cluster.support = .ofPath literals := by
  obtain ⟨element, member, same⟩ := groups.support cluster among
  obtain ⟨entry, known, rfl⟩ := List.mem_map.mp member
  obtain ⟨id, literals, located⟩ := surveys.located entry known
  exact ⟨id, literals, located.path, located.isPath, same.symm.trans located.support⟩

section Clusters

variable (surveys : n.Surveys nodes root entries) (tree : Treelike nodes)
  (isRoot : IsRoot nodes root) (distinct : n.DistinctChoices nodes)
  {clusters : List (Cluster EventId)} (groups : Cluster.Groups (elements entries) clusters)
  {cluster : Cluster EventId}

include surveys tree isRoot distinct groups

/-- Every path that leads to a choice has its cluster. -/
theorem Surveys.exists_cluster (located : n.Located nodes root entry id literals)
    (known : entry ∈ entries) : ∃ cluster ∈ clusters, cluster.support = .ofPath literals := by
  obtain ⟨cluster, among, same⟩ := groups.covers (entry.event, entry.support)
    (List.mem_map_of_mem known)
  obtain ⟨inner, longer, path, isPath, support⟩ := surveys.exists_path groups among
  rw [support, located.support] at same
  obtain rfl := (path.same_ofPath_iff tree isRoot distinct located.path isPath
    located.isPath).mp same
  exact ⟨cluster, among, support⟩

/-- The first cluster has the choices on the empty path. -/
theorem Surveys.head_support (sorted : clusters.Pairwise fun a b =>
      a.support.literalCount ≤ b.support.literalCount) {rest : List (Cluster EventId)}
    (split : clusters = cluster :: rest) : cluster.support = .ofPath [] := by
  obtain ⟨element, member, same⟩ := groups.support cluster (split ▸ List.mem_cons_self ..)
  obtain ⟨entry, known, rfl⟩ := List.mem_map.mp member
  obtain ⟨id, literals, located⟩ := surveys.located entry known
  replace same : cluster.support = .ofPath literals := same.symm.trans located.support
  by_cases first : literals = []
  · rw [same, first]
  · obtain ⟨outer, domain, path, choosing⟩ := located.path.exists_first first
    obtain ⟨entry', known', choiceOf⟩ := surveys.complete outer domain path.within choosing
    obtain ⟨outer', before, located'⟩ := surveys.located entry' known'
    obtain rfl := ChoiceOf.unique distinct located'.chooses located'.choiceOf choiceOf
    obtain rfl := located'.path.unique tree isRoot path
    obtain ⟨least, among, empty⟩ := surveys.exists_cluster tree isRoot distinct groups located' known'
    -- it has no more literals than this one, so none
    have few : cluster.support.literalCount ≤ least.support.literalCount := by
      rw [split] at sorted among
      rcases List.mem_cons.mp among with rfl | later
      · exact Nat.le_refl _
      · exact (List.pairwise_cons.mp sorted).1 least later
    rw [same, empty, Support.literalCount_ofPath located.isPath,
      Support.literalCount_ofPath located'.isPath, List.length_nil, Nat.le_zero,
      List.length_eq_zero_iff] at few
    exact (first few).elim

/-! ## Steps are values -/

/-- A choice activates a cluster by the value that its path goes on with. -/
theorem Surveys.activates_iff (located : n.Located nodes root entry id literals)
    (path : n.Path nodes root inner longer) (isPath : IsPath longer) (among : cluster ∈ clusters)
    (support : cluster.support = .ofPath longer) : Hierarchy.Activates cluster entry step ↔
      ∃ value, longer = literals ++ [.is entry.subject value] ∧
        step = .ofLiteral (.is entry.subject value) := by
  have members : cluster.members = Cluster.having (elements entries) (.ofPath longer) :=
    support ▸ groups.members cluster among
  unfold Hierarchy.Activates
  rw [located.support, support]
  simp only [Hierarchy.activating?_ofPath,
    located.path.separating_iff tree isRoot distinct path located.isPath isPath located.chooses]
  constructor
  · rintro ⟨_, a, ⟨rfl, about⟩, rfl⟩
    -- the literal of a path says that the choice has a value
    have assigned := isPath.assigned a (by simp)
    have whole : a = .is entry.subject a.value := by
      cases a
      cases about
      cases assigned
      rfl
    exact ⟨a.value, congrArg (literals ++ [·]) whole, congrArg Step.ofLiteral whole⟩
  · rintro ⟨value, rfl, rfl⟩
    refine ⟨fun inside => ?_, _, ⟨rfl, rfl⟩, rfl⟩
    rw [members, surveys.mem_having_iff tree isRoot distinct path isPath] at inside
    obtain ⟨inner', path', choiceOf⟩ := inside
    obtain rfl := ChoiceOf.unique distinct located.chooses located.choiceOf choiceOf
    simpa using located.path.unique tree isRoot path'

/-- A step from a choice activates what is on the path that goes on with a value. -/
theorem Surveys.activated_iff (sorted : clusters.Pairwise fun a b =>
      a.support.literalCount ≤ b.support.literalCount)
    (located : n.Located nodes root entry id literals) (known : entry ∈ entries) :
    Hierarchy.Activated ((clusters.drop 1).product entries) entry.event step members ↔
      ∃ value inner event, step = .ofLiteral (.is entry.subject value) ∧
        n.Path nodes root inner (literals ++ [.is entry.subject value]) ∧
        n.ChoiceOf nodes inner event ∧
        members = Cluster.having (elements entries)
          (.ofPath (literals ++ [.is entry.subject value])) := by
  constructor
  · rintro ⟨⟨cluster, entry'⟩, pair, same, rfl, activates⟩
    obtain ⟨later, known'⟩ := List.pair_mem_product.mp pair
    have among := List.mem_of_mem_drop later
    obtain rfl := surveys.eq_of_event_eq known' known same
    obtain ⟨element, member, support⟩ := groups.support cluster among
    obtain ⟨entry, known', rfl⟩ := List.mem_map.mp member
    obtain ⟨inner, longer, located'⟩ := surveys.located entry known'
    replace support := support.symm.trans located'.support
    obtain ⟨value, rfl, rfl⟩ := (surveys.activates_iff tree isRoot distinct groups located
      located'.path located'.isPath among support).mp activates
    exact ⟨value, inner, _, rfl, located'.path, located'.choiceOf,
      support ▸ groups.members cluster among⟩
  · rintro ⟨value, inner, _, rfl, path, ⟨⟨domain, choosing⟩, _⟩, rfl⟩
    obtain ⟨entry', known', choiceOf⟩ := surveys.complete inner domain path.within choosing
    obtain ⟨inner', longer, located'⟩ := surveys.located entry' known'
    obtain rfl := ChoiceOf.unique distinct located'.chooses located'.choiceOf choiceOf
    obtain rfl := located'.path.unique tree isRoot path
    obtain ⟨cluster, among, support⟩ :=
      surveys.exists_cluster tree isRoot distinct groups located' known'
    have later : cluster ∈ clusters.drop 1 := by
      cases split : clusters with
      | nil =>
        rw [split] at among
        cases among
      | cons first rest =>
        rw [split] at among
        refine (List.mem_cons.mp among).resolve_left fun same => ?_
        have empty := surveys.head_support tree isRoot distinct groups sorted split
        rw [← same, support] at empty
        have count := congrArg Support.literalCount empty
        rw [Support.literalCount_ofPath located'.isPath, Support.literalCount_ofPath .nil] at count
        simp at count
    exact ⟨(cluster, entry), List.pair_mem_product.mpr ⟨later, known⟩, rfl,
      support ▸ groups.members cluster among, (surveys.activates_iff tree isRoot distinct groups
        located located'.path located'.isPath among support).mpr ⟨value, rfl, rfl⟩⟩

end Clusters

end Network

/-! ## The hierarchy -/

namespace Hierarchy

theorem activated_eq (h : Hierarchy) (event : EventId) (a : Literal) :
    h.activated event a = (entered? h.activation event (.ofLiteral a)).getD [] := rfl

theorem groups_and_sorted {h : Hierarchy} {entries : List Entry}
    (clusters : h.clusters = Cluster.group (elements entries)) :
    Cluster.Groups (elements entries) h.clusters ∧
      h.clusters.Pairwise fun a b => a.support.literalCount ≤ b.support.literalCount := by
  rw [clusters]
  exact ⟨Cluster.groups_group _, Cluster.pairwise_group _⟩

section Reflects

variable (surveys : n.Surveys nodes root entries) (tree : Treelike nodes)
  (isRoot : IsRoot nodes root) (distinct : n.DistinctChoices nodes)
  (clusters : h.clusters = Cluster.group (elements entries))
  (activation : h.activation = activationOf h.clusters entries)

include surveys tree isRoot distinct clusters

/-- The choices that can be faced at once are those on the empty path. -/
theorem initial_eq (chosen : ∃ id domain, Within nodes root id ∧ Choosing nodes id domain) :
    h.initial = Cluster.having (elements entries) (.ofPath []) := by
  obtain ⟨groups, sorted⟩ := groups_and_sorted clusters
  cases split : h.clusters with
  | nil =>
    obtain ⟨id, domain, within, choosing⟩ := chosen
    obtain ⟨entry, known, _⟩ := surveys.complete id domain within choosing
    obtain ⟨cluster, among, _⟩ := groups.covers _ (List.mem_map_of_mem known)
    rw [split] at among
    cases among
  | cons first rest =>
    have head : h.initial = first.members := by rw [initial, split]
    rw [head, groups.members first (split ▸ List.mem_cons_self ..),
      surveys.head_support tree isRoot distinct groups sorted split]

/-- No step activates two clusters, for each leads on by one value. -/
theorem unambiguous : Unambiguous ((h.clusters.drop 1).product entries) := by
  intro event step members members' activated activated'
  obtain ⟨groups, sorted⟩ := groups_and_sorted clusters
  obtain ⟨⟨cluster, entry⟩, pair, rfl, _⟩ := id activated
  have known := (List.pair_mem_product.mp pair).2
  obtain ⟨_, literals, located⟩ := surveys.located entry known
  have steps {members : List EventId}
      (activated : Activated ((h.clusters.drop 1).product entries) entry.event step members) :=
    (surveys.activated_iff tree isRoot distinct groups sorted located known).mp activated
  obtain ⟨value, _, _, which, _, _, rfl⟩ := steps activated
  obtain ⟨value', _, _, which', _, _, rfl⟩ := steps activated'
  obtain rfl : value = value' := congrArg Step.value (which.symm.trans which')
  rfl

include activation

/-- All activations are entered. -/
theorem records : Records ((h.clusters.drop 1).product entries) h.activation := by
  rw [activation]
  exact records_activationOf (unambiguous surveys tree isRoot distinct clusters)

/-- What is entered are the steps from a choice to the choices that are behind a
value of it. -/
theorem entered?_eq_some_iff : entered? h.activation event step = some members ↔
    ∃ entry ∈ entries, entry.event = event ∧ ∃ id literals,
      n.Located nodes root entry id literals ∧ ∃ value inner event,
        step = .ofLiteral (.is entry.subject value) ∧
        n.Path nodes root inner (literals ++ [.is entry.subject value]) ∧
        n.ChoiceOf nodes inner event ∧
        members = Cluster.having (elements entries)
          (.ofPath (literals ++ [.is entry.subject value])) := by
  obtain ⟨groups, sorted⟩ := groups_and_sorted clusters
  rw [(records surveys tree isRoot distinct clusters activation).entered]
  constructor
  · intro activated
    obtain ⟨⟨cluster, entry⟩, pair, rfl, _⟩ := id activated
    have known := (List.pair_mem_product.mp pair).2
    obtain ⟨id, literals, located⟩ := surveys.located entry known
    exact ⟨entry, known, rfl, id, literals, located,
      (surveys.activated_iff tree isRoot distinct groups sorted located known).mp activated⟩
  · rintro ⟨entry, known, rfl, id, literals, located, goes⟩
    exact (surveys.activated_iff tree isRoot distinct groups sorted located known).mpr goes

/-- A value of a choice activates the choices in its branch with no other choice in between. -/
theorem mem_activated_iff {id : EpisodeId} {event inside : EventId} {subject : ChoiceVariable}
    {value : String} (within : Within nodes root id) (choiceOf : n.ChoiceOf nodes id event)
    (decides : n.Decides id subject) : inside ∈ h.activated event (.is subject value) ↔
      ∃ child id', Selects nodes id value child ∧ Beside nodes child id' ∧
        n.ChoiceOf nodes id' inside := by
  have chooses : n.Chooses nodes id subject := ⟨choiceOf.1, decides⟩
  obtain ⟨entry, known, rfl, rfl, literals, located⟩ :=
    surveys.exists_located distinct within chooses choiceOf
  have goes : (∃ child id', Selects nodes id value child ∧ Beside nodes child id' ∧
      n.ChoiceOf nodes id' inside) ↔ ∃ id', n.Path nodes root id'
        (literals ++ [.is entry.subject value]) ∧ n.ChoiceOf nodes id' inside := by
    simp only [← located.path.exists_selects_iff distinct chooses]
    constructor
    · rintro ⟨child, id', selects, beside, choiceOf⟩
      exact ⟨id', ⟨child, selects, beside⟩, choiceOf⟩
    · rintro ⟨id', ⟨child, selects, beside⟩, choiceOf⟩
      exact ⟨child, id', selects, beside, choiceOf⟩
  rw [activated_eq, goes]
  cases found : entered? h.activation entry.event (.ofLiteral (.is entry.subject value)) with
  | none =>
    refine iff_of_false List.not_mem_nil fun ⟨id', path, choiceOf⟩ => ?_
    have there := (entered?_eq_some_iff surveys tree isRoot distinct clusters activation).mpr
      ⟨entry, known, rfl, id, literals, located, value, id', inside, rfl, path, choiceOf, rfl⟩
    cases found.symm.trans there
  | some members =>
    obtain ⟨entry', known', same, id', literals', located', value', inner', _, which, path, ends,
        rfl⟩ :=
      (entered?_eq_some_iff surveys tree isRoot distinct clusters activation).mp found
    obtain rfl := surveys.eq_of_event_eq known' known same
    obtain rfl := ChoiceOf.unique distinct chooses located.choiceOf located'.choiceOf
    obtain rfl := located.path.unique tree isRoot located'.path
    obtain rfl : value = value' := congrArg Step.value which
    exact surveys.mem_having_iff tree isRoot distinct path
      (surveys.isPath tree isRoot distinct path ends)

/-- A step that is entered is a value of a choice, and it activates something. -/
theorem located_of_entered?_eq_some {event : EventId} {step : Step} {members : List EventId}
    (found : entered? h.activation event step = some members) : members ≠ [] ∧
      ∃ id subject, Within nodes root id ∧ n.ChoiceOf nodes id event ∧ n.Decides id subject ∧
        ∃ value ∈ subject.domain, step = .ofLiteral (.is subject value) := by
  obtain ⟨entry, known, rfl, id, literals, located, value, inner, event, rfl, path, choiceOf, rfl⟩ :=
    (entered?_eq_some_iff surveys tree isRoot distinct clusters activation).mp found
  have isPath := surveys.isPath tree isRoot distinct path choiceOf
  have first := (surveys.mem_having_iff tree isRoot distinct path isPath).mpr ⟨inner, path, choiceOf⟩
  obtain ⟨child, ⟨node, domain, made, one, member⟩, _⟩ :=
    (located.path.exists_selects_iff distinct located.chooses).mpr path
  obtain ⟨node', made', one'⟩ := located.choosing
  obtain rfl := Option.some.inj (made.symm.trans made')
  obtain rfl := Option.some.inj (one.symm.trans one')
  exact ⟨List.ne_nil_of_mem first, id, entry.subject, located.path.within, located.choiceOf,
    located.decides, value, (List.of_mem_zip member).1, rfl⟩

/-- The hierarchy is as the choices of the tree are nested. -/
theorem reflects (chosen : ∃ id domain, Within nodes root id ∧ Choosing nodes id domain) :
    h.Reflects n nodes root where
  initial event := by
    rw [initial_eq surveys tree isRoot distinct clusters chosen,
      surveys.mem_having_iff tree isRoot distinct .root .nil]
    exact exists_congr fun id => and_congr_left' Path.beside_iff.symm
  initial_nodup := by
    rw [initial_eq surveys tree isRoot distinct clusters chosen]
    exact surveys.having_nodup _
  activated _ _ _ _ within choiceOf decides _ :=
    mem_activated_iff surveys tree isRoot distinct clusters activation within choiceOf decides
  activated_nodup event literal := by
    rw [activated_eq]
    cases found : entered? h.activation event (.ofLiteral literal) with
    | none => exact List.nodup_nil
    | some members =>
      obtain ⟨_, _, _, _, _, _, _, _, _, _, _, _, rfl⟩ :=
        (entered?_eq_some_iff surveys tree isRoot distinct clusters activation).mp found
      exact surveys.having_nodup _
  entered event steps held := by
    refine ⟨(records surveys tree isRoot distinct clusters activation).filled event steps held,
      fun step members there => ?_⟩
    refine located_of_entered?_eq_some surveys tree isRoot distinct clusters activation ?_
    rw [entered?, held, Option.bind_some, there]

end Reflects

end Hierarchy

/-! ## Reading the hierarchy -/

namespace Grove

variable (grove : Grove nodes p) (tree : Treelike nodes) (isRoot : IsRoot nodes root)

include grove isRoot

/-- What has been met when a tree was traversed is as it was. -/
theorem yields_view : Build.view.Yields (p.planned root) fun t q =>
    Tours p.network root t ∧ q.traversal = some t ∧ q.userConstraints = ∅ ∧
      Same p.network q.network := by
  obtain ⟨t, collected, tours⟩ := grove.exists_tours isRoot
  have user : (p.planned root).userConstraints = ∅ := grove.user
  have collected' : Traversal.collect (p.planned root).network (p.planned root).plan
      (p.planned root).userConstraints = .ok t := by
    rw [user]
    exact collected
  refine (Build.yields_view rfl collected' (fun id member => ?_) fun id member => ?_).mono ?_
  · obtain ⟨e, found⟩ := (grove.ready root isRoot).exists_episode
    obtain ⟨f, there⟩ := exists_of_mem_unfolding found (tours.episodes id member)
    exact grove.registered id (grove.count ▸ index_lt_size there)
  · rw [user] at member
    cases member
  · rintro _ q ⟨rfl, same, network⟩
    refine ⟨tours, by rw [same], ?_, network⟩
    rw [same]
    exact user

include tree

/-- The hierarchy of a tree that has choices can be read once the tree is the plan. -/
theorem yields_hierarchy (chosen : ∃ id domain, Within nodes root id ∧ Choosing nodes id domain) :
    (do Build.setPlan (.episode root); Build.hierarchy).Yields p fun h _ =>
      h.Reflects p.network nodes root := by
  refine (grove.yields_setPlan isRoot).bind ?_
  rintro _ _ rfl
  obtain ⟨t, q, viewed, tours, cached, user, same⟩ := grove.yields_view isRoot
  have has {element : Guarded} (part : element ∈ p.network.parts root) : q.network.Has element :=
    same.adds.toGrows.has ((grove.ready root isRoot).has part)
  obtain ⟨choices, listed, wanted⟩ : ∃ choices, t.events.toList.foldlM
      (Build.choiceEvents q.network fun _ => true) ∅ = .ok choices ∧ _ :=
    Build.exists_choiceEvents (fun id member => has (tours.events id member)) ∅
  have chosen' (event : EventId) : event ∈ choices.toList ↔
      event ∈ t.events.toList ∧ ∃ c, q.network.choice event = .ok c := by
    simpa [OrdSet.not_mem_empty] using wanted event
  have known : ∀ event ∈ choices.toList, ∃ entry, Hierarchy.entryOf q.network event = .ok entry := by
    intro event member
    obtain ⟨met, c, carried⟩ := (chosen' event).mp member
    obtain ⟨s, support⟩ := (has (tours.events event met)).exists_support
    exact ⟨_, Hierarchy.entryOf_eq_ok_iff.mpr ⟨c, s, carried, support, rfl⟩⟩
  have supported : ∀ c ∈ t.constraints.toList, ∃ s, q.network.support (.temporal c) = .ok s :=
    fun c member => (has (tours.constraints c member)).exists_support
  obtain ⟨h, entries, read, clusters, activation, events, entered⟩ :=
    Hierarchy.exists_ofNetwork known supported
  have surveys := grove.surveys tree isRoot same tours chosen' events entered
  refine ⟨h, q, ?_, Hierarchy.reflects surveys tree isRoot grove.distinct clusters activation chosen⟩
  refine Attempt.bind_eq_ok_iff.mpr ⟨choices, q,
    Build.choicesWhere_eq_ok_iff.mpr ⟨t, viewed, listed⟩, ?_⟩
  refine Attempt.bind_eq_ok_iff.mpr ⟨t.constraints, q, Build.constraints_eq_ok_iff.mpr
    ⟨t, Build.view_of_cached cached, ?_⟩, Attempt.read_eq_ok_iff.mpr ⟨read, rfl⟩⟩
  rw [user]
  rfl

end Grove

namespace Program

/-- The hierarchy reconstructs the nesting. From a program without elements, let
some calls that were given no events build trees from their leaves up, and let the
root of a tree with choices be the plan. Then the hierarchy of the choices can be
made. The choices that can be faced at once are those in no branch of another, and
a value of a choice activates those in its branch that have no other in between.
Nothing else is entered. -/
theorem hierarchy_reflects_nesting {config : Config} {fresh : Program}
    (valid : Program.new config = .ok fresh) (tree : Treelike nodes)
    (unanchored : ∀ node ∈ nodes, node.Unanchored) {ids : List EpisodeId}
    (built : Build.all nodes fresh = .ok ids p) (isRoot : IsRoot nodes root)
    (chosen : ∃ id domain, Within nodes root id ∧ Choosing nodes id domain) :
    (do Build.setPlan (.episode root); Build.hierarchy).Yields p fun h _ =>
      h.Reflects p.network nodes root := by
  obtain ⟨_, _, rfl⟩ := Network.map_eq_ok_iff.mp valid
  have grove : Grove ([] ++ nodes) p :=
    (grove_nil (blank_ofConfig config)).of_all tree unanchored built
  exact grove.yields_hierarchy tree isRoot chosen

/-- The default configuration is valid. -/
theorem new_default : Program.new {} = .ok (.ofConfig {}) := by
  have positive : Number.zero.lt defaultTolerance = true := by decide +kernel
  have differ : ("RUN" : String) ≠ "STOP" := by decide
  simp only [Program.new, Config.validate, positive, Bool.not_true, Bool.false_eq_true, if_false,
    differ, Except.map]

/-- A decision between two leaves in a branch of another decision. -/
def decisionInBranch : List Node :=
  [.leaf {}, .leaf {}, .decide { domain := ["A", "B"] } [⟨0⟩, ⟨1⟩] {}, .leaf {},
    .decide { domain := ["C", "D"] } [⟨2⟩, ⟨3⟩] {}]

theorem bottomUp_decisionInBranch : BottomUp decisionInBranch := by
  have options := CompositionOptions.plain_default
  have leaf := EpisodeSpec.plain_default
  refine ⟨?_, ?_, by decide, by decide, nofun⟩
  · simp only [decisionInBranch, List.forall_mem_cons]
    refine ⟨leaf, leaf, ⟨.inl rfl, ⟨by decide, by decide, rfl, rfl⟩, rfl, options⟩, leaf,
      ⟨.inl rfl, ⟨by decide, by decide, rfl, rfl⟩, rfl, options⟩, List.forall_mem_nil _⟩
  · intro i node made child inside
    match i with
    | 0 | 1 | 3 => cases made; cases inside
    | 2 | 4 =>
      cases made
      simp only [Node.children, List.mem_cons, List.not_mem_nil, or_false] at inside
      rcases inside with rfl | rfl <;> decide

/-- The outer decision can be faced at once, and its first value activates the
inner one. -/
theorem hierarchy_reflects_nesting_decision_in_branch : ∃ ids p,
    Program.new {} = .ok (.ofConfig {}) ∧
      Build.all decisionInBranch (.ofConfig {}) = .ok ids p ∧
      (do Build.setPlan (.episode ⟨4⟩); Build.hierarchy).Yields p fun h _ =>
        ∃ outer inner subject, outer ∈ h.initial ∧ p.network.Decides ⟨4⟩ subject ∧
          inner ∈ h.activated outer (.is subject "C") := by
  obtain ⟨ids, p, built, _, forest⟩ := (forest_nil (blank_ofConfig {})).yields_all
    (Named.ofConfig {}) bottomUp_decisionInBranch
  have unanchored : ∀ node ∈ decisionInBranch, node.Unanchored := by
    have leaf : EpisodeSpec.Unanchored {} := ⟨rfl, rfl, rfl⟩
    simp only [decisionInBranch, List.forall_mem_cons]
    exact ⟨leaf, leaf, ⟨rfl, rfl⟩, leaf, ⟨rfl, rfl⟩, List.forall_mem_nil _⟩
  have isRoot : IsRoot decisionInBranch ⟨4⟩ := ⟨by decide, by decide⟩
  have outside : Choosing decisionInBranch ⟨4⟩ ["C", "D"] := ⟨_, rfl, rfl⟩
  have inside : Choosing decisionInBranch ⟨2⟩ ["A", "B"] := ⟨_, rfl, rfl⟩
  refine ⟨ids, p, new_default, built, ?_⟩
  refine (hierarchy_reflects_nesting new_default bottomUp_decisionInBranch.treelike unanchored built
    isRoot ⟨⟨4⟩, _, .refl, outside⟩).mono fun h _ reflects => ?_
  obtain ⟨subject, decides, _⟩ := forest.exists_decides outside
  obtain ⟨e, _, found, _⟩ := id decides
  obtain ⟨_, ⟨e', _, found', _⟩, _⟩ := forest.exists_decides inside
  have selects : Selects decisionInBranch ⟨4⟩ "C" ⟨2⟩ := ⟨_, _, rfl, rfl, by decide⟩
  exact ⟨e.start, e'.start, subject,
    (reflects.initial _).mpr ⟨⟨4⟩, .refl, ⟨_, outside⟩, e, found, rfl⟩, decides,
    (reflects.activated ⟨4⟩ e.start subject "C" .refl ⟨⟨_, outside⟩, e, found, rfl⟩ decides _).mpr
      ⟨⟨2⟩, ⟨2⟩, selects, .refl, ⟨_, inside⟩, e', found', rfl⟩⟩

end Program

end PlanNetwork
