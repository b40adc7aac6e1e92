/-
# Which choices a value unlocks

Which choices a step on a choice activates is kept in a table. It is filled cluster by cluster,
and has one place for a step on a choice.

What is in the table is right: a step activates only choices whose cluster it unlocks. But a
cluster that is unlocked can be missing. If several steps on a choice lead to it, then only the
one that is found first is entered. If one step leads to several clusters, then the cluster
that is entered last takes the place of those before it. Clusters have members and none in
common, so these are the only ones that are missing.
-/

import PlanNetwork.Proofs.Program.Active
import PlanNetwork.Proofs.Program.Extension
import PlanNetwork.Proofs.Program.Hierarchy

namespace PlanNetwork

open Network

variable {p q : Program} {t : Traversal} {n : Network} {event d : EventId} {s : Support}
  {a : Literal} {step : Step} {cluster other : Cluster EventId} {clusters : List (Cluster EventId)}
  {entry : Hierarchy.Entry} {entries : List Hierarchy.Entry} {found : Activation} {h : Hierarchy}

/-! ## Clusters -/

namespace Cluster

/-- The choice is not in the cluster, and the literal leads from its support to the cluster's. -/
def UnlockedBy (cluster : Cluster EventId) (event : EventId) (s : Support) (a : Literal) : Prop :=
  event ∉ cluster.members ∧ s.LeadsBy a cluster.support

instance (cluster : Cluster EventId) (event : EventId) (s : Support) (a : Literal) :
    Decidable (cluster.UnlockedBy event s a) :=
  inferInstanceAs (Decidable (event ∉ cluster.members ∧ s.LeadsBy a cluster.support))

/-- The choice is not in the cluster, and the literal is the first one about it that leads from
its support to the cluster's. -/
def UnlockedFirstBy (cluster : Cluster EventId) (event : EventId) (s : Support) (a : Literal) :
    Prop :=
  event ∉ cluster.members ∧ s.LeadsFirstBy a cluster.support

theorem UnlockedFirstBy.unlockedBy (h : cluster.UnlockedFirstBy event s a) :
    cluster.UnlockedBy event s a := ⟨h.1, h.2.leadsBy⟩

/-- The clusters as they are opened. -/
def opened (elements : List (EventId × Support)) : List (Cluster EventId) :=
  elements.foldl (fun clusters e => add clusters e.1 e.2) []

/-- Clusters that are opened in order are not sorted any more. -/
theorem group_eq_opened {elements : List (EventId × Support)}
    (sorted : (opened elements).Pairwise fun a b =>
      a.support.literalCount ≤ b.support.literalCount) : group elements = opened elements :=
  List.mergeSort_of_pairwise (sorted.imp decide_eq_true)

/-- A cluster has members. -/
theorem Groups.exists_mem {elements : List (EventId × Support)} (groups : Groups elements clusters)
    (among : cluster ∈ clusters) : ∃ d, d ∈ cluster.members := by
  obtain ⟨e, member, same⟩ := groups.support cluster among
  have has : cluster.support.same e.2 = true := same ▸ Support.same_refl _
  rw [groups.members cluster among]
  exact ⟨e.1, List.mem_map_of_mem (List.mem_filter.mpr ⟨member, has⟩)⟩

/-- Clusters that share a member have the same support. -/
theorem Groups.same_of_mem {elements : List (EventId × Support)} (groups : Groups elements clusters)
    (once : (elements.map (·.1)).Nodup) (among : cluster ∈ clusters) (among' : other ∈ clusters)
    (member : d ∈ cluster.members) (member' : d ∈ other.members) :
    cluster.support.same other.support = true := by
  rw [groups.members cluster among] at member
  rw [groups.members other among'] at member'
  obtain ⟨e, inside, rfl⟩ := List.mem_map.mp member
  obtain ⟨e', inside', same⟩ := List.mem_map.mp member'
  obtain ⟨listed, has⟩ := List.mem_filter.mp inside
  obtain ⟨listed', has'⟩ := List.mem_filter.mp inside'
  obtain rfl := List.inj_on_of_nodup_map once listed' listed same
  exact Support.same_trans has (Support.same_comm.mp has')

/-- A member of a cluster behind the first one is in no other of these. -/
theorem Groups.drop_apart {elements : List (EventId × Support)} (groups : Groups elements clusters)
    (once : (elements.map (·.1)).Nodup) {before after : List (Cluster EventId)}
    (split : clusters.drop 1 = before ++ cluster :: after) :
    ∀ d ∈ cluster.members, ∀ other ∈ before ++ after, d ∉ other.members := by
  have apart := groups.apart.sublist ((List.drop_sublist 1 clusters).map Cluster.support)
  rw [split, List.map_append, List.map_cons, List.pairwise_append, List.pairwise_cons] at apart
  obtain ⟨_, ⟨behind, _⟩, ahead⟩ := apart
  intro d own other member shares
  have among : cluster ∈ clusters.drop 1 := by simp [split]
  have among' : other ∈ clusters.drop 1 := by
    rw [split, List.mem_append, List.mem_cons]
    exact (List.mem_append.mp member).imp_right .inr
  have same : cluster.support.same other.support = true := groups.same_of_mem once
    (List.mem_of_mem_drop among) (List.mem_of_mem_drop among') own shares
  rcases List.mem_append.mp member with earlier | later
  · exact ahead _ (List.mem_map_of_mem earlier) _ (List.mem_cons_self ..)
      (Support.same_comm.mp same)
  · exact behind _ (List.mem_map_of_mem later) same

end Cluster

/-- Of the items with a property some is the last one, unless there are none. -/
theorem exists_last {α : Type} (P : α → Prop) (items : List α) :
    (∃ before x after, items = before ++ x :: after ∧ P x ∧ ∀ y ∈ after, ¬ P y) ∨
      ∀ x ∈ items, ¬ P x := by
  induction items with
  | nil => exact .inr nofun
  | cons first rest ih =>
    rcases ih with ⟨before, x, after, rfl, holds, last⟩ | none
    · exact .inl ⟨first :: before, x, after, rfl, holds, last⟩
    · by_cases holds : P first
      · exact .inl ⟨[], first, rest, rfl, holds, none⟩
      · exact .inr (List.forall_mem_cons.mpr ⟨holds, none⟩)

namespace Hierarchy

/-! ## The last entry stays -/

theorem of_activating?_eq_some {subject : ChoiceVariable} {s t : Support}
    (found : activating? subject s t = some a) : a.choice.key = subject.key := by
  obtain ⟨outer, _, found⟩ := List.exists_of_findSome?_eq_some found
  obtain ⟨inner, _, found⟩ := List.exists_of_findSome?_eq_some found
  exact (of_separating?_eq_some found).2.2

theorem activates_iff (about : a.choice.key = entry.subject.key) :
    Activates cluster entry (.ofLiteral a) ↔
      cluster.UnlockedFirstBy entry.event entry.support a := by
  refine and_congr_right fun _ => Iff.trans ?_ (activating?_iff about)
  refine exists_congr fun b => and_congr_right fun found => ?_
  rw [Literal.compare_eq_iff, of_activating?_eq_some found]
  simp only [about, Step.ofLiteral, Step.mk.injEq, true_and, eq_comm]

theorem entered?_note_of_not
    (apart : ¬ (event = entry.event ∧ Activates cluster entry step)) :
    entered? (noteActivation cluster found entry) event step = entered? found event step := by
  by_cases active : ∃ step, Activates cluster entry step
  · obtain ⟨step', activates⟩ := active
    rw [noteActivation_of_activates activates, entered?_enter_of_ne]
    rintro ⟨rfl, rfl⟩
    exact apart ⟨rfl, activates⟩
  · rw [noteActivation_of_not_activates (not_exists.mp active)]

/-- Going through a cluster changes nothing for a choice that does not activate it. -/
theorem entered?_cluster_of_not
    (apart : ∀ entry ∈ entries, event = entry.event → ¬ Activates cluster entry step) :
    entered? (entries.foldl (noteActivation cluster) found) event step =
      entered? found event step := by
  induction entries generalizing found with
  | nil => rfl
  | cons first rest ih =>
    obtain ⟨here, later⟩ := List.forall_mem_cons.mp apart
    rw [List.foldl_cons, ih later, entered?_note_of_not fun ⟨same, active⟩ => here same active]

/-- Going through clusters that a choice does not activate changes nothing for it. -/
theorem entered?_clusters_of_not (apart : ∀ cluster ∈ clusters, ∀ entry ∈ entries,
      event = entry.event → ¬ Activates cluster entry step) :
    entered? (clusters.foldl (fun found cluster => entries.foldl (noteActivation cluster) found)
      found) event step = entered? found event step := by
  induction clusters generalizing found with
  | nil => rfl
  | cons first rest ih =>
    obtain ⟨here, later⟩ := List.forall_mem_cons.mp apart
    rw [List.foldl_cons, ih later, entered?_cluster_of_not here]

/-- What is no choice activates nothing. -/
theorem activated_eq_nil_of_not_mem (activation : h.activation = activationOf h.clusters entries)
    (unknown : event ∉ entries.map (·.event)) : h.activated event a = [] := by
  rw [activated_eq, activation, activationOf, entered?_clusters_of_not]
  · rfl
  · exact fun _ _ entry member same => absurd (List.mem_map.mpr ⟨entry, member, same.symm⟩) unknown

section Entries

variable (once : (entries.map (·.event)).Nodup) (known : entry ∈ entries)

include once known

/-- Only the choice itself can activate a cluster in its place. -/
theorem not_activates_of_event_eq (apart : ¬ Activates cluster entry step) :
    ∀ entry' ∈ entries, entry.event = entry'.event → ¬ Activates cluster entry' step := by
  intro entry' known' same
  obtain rfl := List.inj_on_of_nodup_map once known known' same
  exact apart

/-- Going through a cluster enters its members for a choice that activates it. -/
theorem entered?_cluster_of_activates (activates : Activates cluster entry step) :
    entered? (entries.foldl (noteActivation cluster) found) entry.event step =
      some cluster.members := by
  obtain ⟨before, after, rfl⟩ := List.append_of_mem known
  have later : ∀ entry' ∈ after, entry.event = entry'.event → ¬ Activates cluster entry' step := by
    intro entry' member same
    rw [List.map_append, List.nodup_append, List.map_cons, List.nodup_cons] at once
    exact absurd (List.mem_map.mpr ⟨entry', member, same.symm⟩) once.2.1.1
  rw [List.foldl_append, List.foldl_cons, entered?_cluster_of_not later,
    noteActivation_of_activates activates, entered?_enter_self]

variable (activation : h.activation = activationOf h.clusters entries)
  (about : a.choice.key = entry.subject.key)

include activation about

/-- A step on a choice that unlocks nothing first activates nothing. -/
theorem activated_eq_nil
    (none : ∀ cluster ∈ h.clusters.drop 1, ¬ cluster.UnlockedFirstBy entry.event entry.support a) :
    h.activated entry.event a = [] := by
  rw [activated_eq, activation, activationOf, entered?_clusters_of_not]
  · rfl
  · exact fun cluster member => not_activates_of_event_eq once known
      (mt (activates_iff about).mp (none cluster member))

/-- A step on a choice activates the last cluster that it unlocks first. -/
theorem activated_eq_members {before after : List (Cluster EventId)}
    (split : h.clusters.drop 1 = before ++ cluster :: after)
    (unlocks : cluster.UnlockedFirstBy entry.event entry.support a)
    (last : ∀ other ∈ after, ¬ other.UnlockedFirstBy entry.event entry.support a) :
    h.activated entry.event a = cluster.members := by
  rw [activated_eq, activation, activationOf, split, List.foldl_append, List.foldl_cons,
    entered?_clusters_of_not,
    entered?_cluster_of_activates once known ((activates_iff about).mpr unlocks)]
  · rfl
  · exact fun other member => not_activates_of_event_eq once known
      (mt (activates_iff about).mp (last other member))

/-- What a step on a choice activates is a cluster that it unlocks. -/
theorem exists_of_mem_activated (member : d ∈ h.activated entry.event a) :
    ∃ cluster ∈ h.clusters.drop 1,
      cluster.UnlockedBy entry.event entry.support a ∧ d ∈ cluster.members := by
  rcases exists_last (·.UnlockedFirstBy entry.event entry.support a) (h.clusters.drop 1) with
    ⟨before, cluster, after, split, unlocks, last⟩ | none
  · rw [activated_eq_members once known activation about split unlocks last] at member
    exact ⟨cluster, split ▸ by simp, unlocks.unlockedBy, member⟩
  · rw [activated_eq_nil once known activation about none] at member
    cases member

/-- A step on a choice activates a cluster if and only if it unlocks the cluster first, and none
that comes later. -/
theorem activates_members_iff {before after : List (Cluster EventId)}
    (clusters : h.clusters = Cluster.group (elements entries))
    (split : h.clusters.drop 1 = before ++ cluster :: after) :
    (∀ d ∈ cluster.members, d ∈ h.activated entry.event a) ↔
      cluster.UnlockedFirstBy entry.event entry.support a ∧
        ∀ other ∈ after, ¬ other.UnlockedFirstBy entry.event entry.support a := by
  constructor
  · intro all
    have groups : Cluster.Groups (elements entries) h.clusters := clusters ▸ Cluster.groups_group _
    have among : cluster ∈ h.clusters.drop 1 := by simp [split]
    obtain ⟨d, own⟩ := groups.exists_mem (List.mem_of_mem_drop among)
    have apart := groups.drop_apart (by simpa [elements, Function.comp_def] using once) split d own
    -- another cluster that was entered last would have this member as well
    have activated := all d own
    have last : ∀ other ∈ after, ¬ other.UnlockedFirstBy entry.event entry.support a := by
      rcases exists_last (·.UnlockedFirstBy entry.event entry.support a) after with
        ⟨between, other, rest, rfl, unlocks, last⟩ | none
      · rw [List.append_cons, ← List.append_assoc] at split
        rw [activated_eq_members once known activation about split unlocks last] at activated
        exact absurd activated (apart other (by simp))
      · exact none
    refine ⟨?_, last⟩
    by_contra locked
    rcases exists_last (·.UnlockedFirstBy entry.event entry.support a) before with
      ⟨first, other, between, rfl, unlocks, none⟩ | none
    · rw [List.append_assoc, List.cons_append] at split
      have rest : ∀ other ∈ between ++ cluster :: after,
          ¬ other.UnlockedFirstBy entry.event entry.support a :=
        List.forall_mem_append.mpr ⟨none, List.forall_mem_cons.mpr ⟨locked, last⟩⟩
      rw [activated_eq_members once known activation about split unlocks rest] at activated
      exact absurd activated (apart other (by simp))
    · have nothing : ∀ other ∈ before ++ cluster :: after,
          ¬ other.UnlockedFirstBy entry.event entry.support a :=
        List.forall_mem_append.mpr ⟨none, List.forall_mem_cons.mpr ⟨locked, last⟩⟩
      rw [activated_eq_nil once known activation about (split ▸ nothing)] at activated
      cases activated
  · rintro ⟨unlocks, last⟩ d member
    rwa [activated_eq_members once known activation about split unlocks last]

end Entries

/-- What is known of choices can be read for all of them. -/
theorem mapM_entryOf (each : ∀ entry ∈ entries, entryOf n entry.event = .ok entry) :
    (entries.map (·.event)).mapM (entryOf n) = .ok entries := by
  induction entries with
  | nil => rfl
  | cons first rest ih =>
    obtain ⟨here, later⟩ := List.forall_mem_cons.mp each
    rw [List.map_cons, List.mapM_cons, here, ih later]
    rfl

end Hierarchy

namespace Build

/-- Whenever a program can be read, its choices can be listed, and its hierarchy can be made of
them. -/
theorem exists_hierarchy_of_choices {allowed : Discipline} (reachable : p.Reachable allowed)
    (viewed : view p = .ok t q) : ∃ h choices entries,
      hierarchy p = .ok h q ∧ Build.choices p = .ok choices q ∧
      h.clusters = Cluster.group (elements entries) ∧
      h.activation = Hierarchy.activationOf h.clusters entries ∧
      entries.map (·.event) = choices.toList ∧
      ∀ entry ∈ entries, Hierarchy.entryOf q.network entry.event = .ok entry := by
  obtain ⟨cached, events, constraints⟩ := has_of_view reachable viewed
  obtain ⟨choices, listed, wanted⟩ := exists_choiceEvents events ∅
  have known : ∀ event ∈ choices.toList,
      ∃ entry, Hierarchy.entryOf q.network event = .ok entry := by
    intro event member
    obtain ⟨met, data, carried, _⟩ := ((wanted event).mp member).resolve_left OrdSet.not_mem_empty
    obtain ⟨s, support⟩ := (events event met).exists_support
    exact ⟨_, Hierarchy.entryOf_eq_ok_iff.mpr ⟨data, s, carried, support, rfl⟩⟩
  obtain ⟨h, entries, read, clusters, activation, same, entered⟩ :=
    Hierarchy.exists_ofNetwork known fun c member => (constraints c member).exists_support
  have chosen : Build.choices p = .ok choices q := choicesWhere_eq_ok_iff.mpr ⟨t, viewed, listed⟩
  refine ⟨h, choices, entries, ?_, chosen, clusters, activation, same, entered⟩
  exact Attempt.bind_eq_ok_iff.mpr ⟨choices, q, chosen, Attempt.bind_eq_ok_iff.mpr ⟨_, q,
    constraints_eq_ok_iff.mpr ⟨t, view_of_cached cached, rfl⟩,
    Attempt.read_eq_ok_iff.mpr ⟨read, rfl⟩⟩⟩

end Build

namespace Program

/-- What a value of a choice activates is unlocked by it, but not all that is unlocked is
activated. Whenever a program can be read, its choices can be listed and their hierarchy can be
made. A literal about a choice activates nothing but members of clusters behind the first one
that do not have the choice and that the literal leads to. The members of such a cluster are
activated if and only if the literal is the first one about the choice that leads to the
cluster, and there is no later cluster to which it is the first one that leads. -/
theorem activated_choices_are_unlocked (reachable : p.Reachable .free)
    (viewed : Build.view p = .ok t q) : ∃ h choices,
      Build.hierarchy p = .ok h q ∧ Build.choices p = .ok choices q ∧
      (∀ c ∉ choices.toList, ∀ a, h.activated c a = []) ∧
      ∀ c ∈ choices.toList, ∃ data s, q.network.choice c = .ok data ∧
        q.network.support (.event c) = .ok s ∧ ∀ a, a.choice.key = data.subject.key →
          (∀ before cluster after, h.clusters.drop 1 = before ++ cluster :: after →
            ((∀ d ∈ cluster.members, d ∈ h.activated c a) ↔
              cluster.UnlockedFirstBy c s a ∧ ∀ other ∈ after, ¬ other.UnlockedFirstBy c s a)) ∧
          ∀ d ∈ h.activated c a, ∃ cluster ∈ h.clusters.drop 1,
            cluster.UnlockedBy c s a ∧ d ∈ cluster.members := by
  obtain ⟨h, choices, entries, made, chosen, clusters, activation, same, entered⟩ :=
    Build.exists_hierarchy_of_choices reachable viewed
  have once : (entries.map (·.event)).Nodup := same ▸ choices.nodup
  refine ⟨h, choices, made, chosen, fun c unknown a => ?_, fun c member => ?_⟩
  · exact Hierarchy.activated_eq_nil_of_not_mem activation (same ▸ unknown)
  · obtain ⟨entry, known, rfl⟩ := List.mem_map.mp (same ▸ member)
    obtain ⟨data, s, carried, support, which⟩ :=
      Hierarchy.entryOf_eq_ok_iff.mp (entered entry known)
    refine ⟨data, s, carried, support, fun a about => ?_⟩
    obtain rfl : entry.support = s := congrArg Hierarchy.Entry.support which
    have about : a.choice.key = entry.subject.key :=
      about.trans (congrArg (·.subject.key) which).symm
    exact ⟨fun before cluster after split =>
      Hierarchy.activates_members_iff once known activation about clusters split,
      fun d member => Hierarchy.exists_of_mem_activated once known activation about member⟩

/-! ### A choice that unlocks two others -/

/-- The first choice, as guards know it. -/
def leading : ChoiceVariable := ⟨1, "x", .controllable, ["A", "B"]⟩

/-- Three choices. The second one exists for the first value of the first choice, and the third
one for either value of it. -/
@[irreducible] def twofold : Program :=
  (Program.ofConfig {}).afterCalls [
    ⟨_, .addChoice { domain := ["A", "B"], id := some "x", kind := some .controllable }⟩,
    ⟨_, .addChoice { domain := ["A", "B"], id := some "y", kind := some .controllable }⟩,
    ⟨_, .addChoice { domain := ["A", "B"], id := some "z", kind := some .controllable }⟩,
    ⟨_, .edit (.narrow (.event ⟨1⟩) (.ofLiteral (.is leading "A")))⟩,
    ⟨_, .edit (.narrow (.event ⟨2⟩)
      (.ofList [.single (.is leading "A"), .single (.is leading "B")]))⟩,
    ⟨_, .addConstraint ⟨0⟩ ⟨1⟩ .unconstrained⟩, ⟨_, .addConstraint ⟨0⟩ ⟨2⟩ .unconstrained⟩]

theorem reachable_twofold : twofold.Reachable .free := by
  unfold twofold
  exact (reachable_of_config (by decide +kernel)).afterCalls fun _ _ => trivial

/-- What is known of the choices when the program has been read. -/
def entries? (p : Program) : Option (List Hierarchy.Entry) :=
  (Build.choices.result? p).bind fun choices =>
    (choices.toList.mapM (Hierarchy.entryOf (Build.view.after p).network)).toOption

/-- The clusters of the three choices, with whether the values of the first one lead to them. -/
theorem opened_twofold :
    ((Build.view.after twofold).network.support (.event ⟨0⟩)).toOption.bind (fun s =>
      (entries? twofold).map fun entries =>
        (Cluster.opened (elements entries)).map fun cluster =>
          (cluster.support.literalCount, cluster.members,
            decide (cluster.UnlockedBy ⟨0⟩ s (.is leading "A")),
            decide (cluster.UnlockedBy ⟨0⟩ s (.is leading "B")))) =
      some [(0, [⟨0⟩], false, false), (1, [⟨1⟩], true, false), (2, [⟨2⟩], true, true)] := by
  decide +kernel

/-- What is entered for the values of the first choice. -/
theorem entered_twofold : (entries? twofold).map (fun entries => ["A", "B"].map fun value =>
      Hierarchy.entered? (Hierarchy.activationOf (Cluster.opened (elements entries)) entries) ⟨0⟩
        (.ofLiteral (.is leading value))) = some [some [⟨2⟩], none] := by
  decide +kernel

/-- The first value leads to both clusters and activates the later one only. The second value
leads to the later cluster and activates nothing. -/
theorem hierarchy_twofold : ∃ t q h choices s first second,
    Build.view twofold = .ok t q ∧ Build.hierarchy twofold = .ok h q ∧
      Build.choices twofold = .ok choices q ∧ ⟨0⟩ ∈ choices.toList ∧
      (∃ data, q.network.choice ⟨0⟩ = .ok data ∧ data.subject = leading) ∧
      q.network.support (.event ⟨0⟩) = .ok s ∧ h.clusters.drop 1 = [first, second] ∧
      first.members = [⟨1⟩] ∧ second.members = [⟨2⟩] ∧
      first.UnlockedBy ⟨0⟩ s (.is leading "A") ∧ second.UnlockedBy ⟨0⟩ s (.is leading "B") ∧
      h.activated ⟨0⟩ (.is leading "A") = [⟨2⟩] ∧ h.activated ⟨0⟩ (.is leading "B") = [] := by
  obtain ⟨t, viewed⟩ := Attempt.exists_eq_ok_after Build.view twofold (by decide +kernel)
  obtain ⟨h, choices, entries, made, chosen, clusters, activation, same, entered⟩ :=
    Build.exists_hierarchy_of_choices reachable_twofold viewed
  have known : entries? twofold = some entries := by
    have read := Hierarchy.mapM_entryOf entered
    rw [same] at read
    rw [entries?, Attempt.result?, chosen]
    exact toOption_eq_some_iff.mpr read
  obtain ⟨s, support, facts⟩ := Option.bind_eq_some_iff.mp opened_twofold
  have values := entered_twofold
  rw [known, Option.map_some, Option.some.injEq] at facts values
  obtain ⟨zeroth, _, opened, here, rest⟩ := List.map_eq_cons_iff.mp facts
  obtain ⟨first, _, rfl, here', rest⟩ := List.map_eq_cons_iff.mp rest
  obtain ⟨second, rfl, here''⟩ := List.map_eq_singleton_iff.mp rest
  simp only [Prod.mk.injEq, decide_eq_true_eq, decide_eq_false_iff_not] at here here' here''
  have sorted : (Cluster.opened (elements entries)).Pairwise fun a b =>
      a.support.literalCount ≤ b.support.literalCount := by
    simp [opened, here, here', here'']
  rw [Cluster.group_eq_opened sorted] at clusters
  rw [← clusters, ← activation] at values
  obtain ⟨value, value'⟩ : Hierarchy.entered? h.activation ⟨0⟩ (.ofLiteral (.is leading "A")) =
      some [⟨2⟩] ∧ Hierarchy.entered? h.activation ⟨0⟩ (.ofLiteral (.is leading "B")) = none := by
    simpa using values
  have activated : h.activated ⟨0⟩ (.is leading "A") = [⟨2⟩] := by
    rw [Hierarchy.activated_eq, value]
    rfl
  have subject : ((Build.view.after twofold).network.choice ⟨0⟩).toOption.map (·.subject) =
      some leading := by decide +kernel
  obtain ⟨data, carried, about⟩ := Option.map_eq_some_iff.mp subject
  refine ⟨t, _, h, choices, s, first, second, viewed, made, chosen, ?_,
    ⟨data, toOption_eq_some_iff.mp carried, about⟩, toOption_eq_some_iff.mp support,
    by rw [clusters, opened]; rfl, here'.2.1, here''.2.1, here'.2.2.1, here''.2.2.2, activated,
    by rw [Hierarchy.activated_eq, value']; rfl⟩
  by_contra unknown
  rw [Hierarchy.activated_eq_nil_of_not_mem activation (same ▸ unknown)] at activated
  cases activated

/-- The third choice is activated by the first value, and this is the first one that leads to it.
The second choice is not. -/
theorem activated_choices_are_unlocked_twofold : twofold.Reachable .free ∧
    ∃ t q h s first second, Build.view twofold = .ok t q ∧ Build.hierarchy twofold = .ok h q ∧
      q.network.support (.event ⟨0⟩) = .ok s ∧ h.clusters.drop 1 = [first, second] ∧
      second.UnlockedFirstBy ⟨0⟩ s (.is leading "A") ∧
      ¬ ∀ d ∈ first.members, d ∈ h.activated ⟨0⟩ (.is leading "A") := by
  obtain ⟨t, q, h, choices, s, first, second, viewed, made, chosen, listed, ⟨data, carried, about⟩,
    support, split, members, members', _, _, activated, _⟩ := hierarchy_twofold
  obtain ⟨_, _, made', chosen', _, unlocked⟩ :=
    activated_choices_are_unlocked reachable_twofold viewed
  obtain ⟨rfl, _⟩ := EStateM.Result.ok.inj (made.symm.trans made')
  obtain ⟨rfl, _⟩ := EStateM.Result.ok.inj (chosen.symm.trans chosen')
  obtain ⟨_, _, carried', support', each⟩ := unlocked ⟨0⟩ listed
  obtain rfl := Except.ok.inj (carried.symm.trans carried')
  obtain rfl := Except.ok.inj (support.symm.trans support')
  obtain ⟨iff, _⟩ := each (.is leading "A") (congrArg ChoiceVariable.key about.symm)
  have last := (iff [first] second [] split).mp fun d member => by
    rw [activated]
    exact members' ▸ member
  refine ⟨reachable_twofold, t, q, h, s, first, second, viewed, made, support, split, last.1, ?_⟩
  intro all
  exact ((iff [] first [second] split).mp all).2 second (List.mem_singleton_self _) last.1

/-- Choices that are unlocked can be forgotten. Either value of the first choice leads to the
third one, and the second value activates nothing. The first value leads to the second one as
well, and does not activate it. -/
theorem unlocked_choices_are_forgotten : twofold.Reachable .free ∧
    ∃ t q h choices s, Build.view twofold = .ok t q ∧ Build.hierarchy twofold = .ok h q ∧
      Build.choices twofold = .ok choices q ∧ ⟨0⟩ ∈ choices.toList ∧
      (∃ data, q.network.choice ⟨0⟩ = .ok data ∧ data.subject = leading) ∧
      q.network.support (.event ⟨0⟩) = .ok s ∧
      (∃ cluster ∈ h.clusters.drop 1, cluster.UnlockedBy ⟨0⟩ s (.is leading "A") ∧
        ⟨1⟩ ∈ cluster.members ∧ ⟨1⟩ ∉ h.activated ⟨0⟩ (.is leading "A")) ∧
      ∃ cluster ∈ h.clusters.drop 1, cluster.UnlockedBy ⟨0⟩ s (.is leading "B") ∧
        ⟨2⟩ ∈ cluster.members ∧ ⟨2⟩ ∉ h.activated ⟨0⟩ (.is leading "B") := by
  obtain ⟨t, q, h, choices, s, first, second, viewed, made, chosen, listed, about, support, split,
    members, members', unlocked, unlocked', activated, activated'⟩ := hierarchy_twofold
  refine ⟨reachable_twofold, t, q, h, choices, s, viewed, made, chosen, listed, about, support,
    ⟨first, by simp [split], unlocked, by simp [members], by simp [activated]⟩,
    second, by simp [split], unlocked', by simp [members'], by simp [activated']⟩

end Program

end PlanNetwork
