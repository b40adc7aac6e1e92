/-
# Calls that cannot be refused

While nobody asks for an id, the ids that episodes get are free, for each of them ends with a
serial number that nothing else has. So a call that is as it should be succeeds in a grove
without ids, and so does the decision of a loop, whose choice has an id and utilities.

A decision brings in one choice, as it is specified. Calls that ask for no choice bring in
none.
-/

import PlanNetwork.Proofs.Program.Hierarchy
import PlanNetwork.Proofs.Program.Registry

namespace PlanNetwork

open Network

variable {n m : Network} {p q : Program} {done : List Node} {node : Node} {id : EpisodeId}
  {e : Episode} {event choice : EventId} {labels : LoopLabels}
  {runUtility stopUtility : Number} {left : Nat} {α : Type}

/-! ## Which choices come in -/

/-- What a loop says about its decision with so many runs left. -/
def LoopLabels.spec (labels : LoopLabels) (runUtility stopUtility : Number) (left : Nat) :
    ChoiceSpec where
  domain := [labels.run, labels.stop]
  id := some (labels.stem ++ toString left)
  utilities := some [runUtility, stopUtility]

theorem LoopLabels.validate_spec (differ : labels.run ≠ labels.stop) (tolerance : Number) :
    ChoiceSpec.validate { labels.spec runUtility stopUtility left with kind := some .controllable }
      tolerance = .ok .controllable := by
  refine ChoiceSpec.validate_eq_ok rfl (List.cons_ne_nil _ _) ?_ (fun entries given => ?_) rfl
    tolerance
  · exact List.nodup_cons.mpr ⟨by simpa using differ, List.nodup_singleton _⟩
  · obtain rfl := Option.some.inj given
    rfl

namespace Network

/-- The event is that of a loop's decision with so many runs left: the executive makes it,
between running the body and leaving the loop. -/
def IsOffer (n : Network) (labels : LoopLabels) (runUtility stopUtility : Number) (left : Nat)
    (event : EventId) : Prop :=
  ∃ e c, n.event event = .ok e ∧ e.choice = some c ∧
    e.identity.id = labels.stem ++ toString left ∧ c.kind = .controllable ∧
    c.subject.domain = [labels.run, labels.stop] ∧ c.utilities = some [runUtility, stopUtility]

theorem IsOffer.has_choice (offer : n.IsOffer labels runUtility stopUtility left event) :
    ∃ c, n.choice event = .ok c ∧ c.kind = .controllable ∧
      c.subject.domain = [labels.run, labels.stop] := by
  obtain ⟨e, c, found, carried, _, kind, domain, _⟩ := offer
  exact ⟨c, choice_eq_ok_iff.mpr ⟨e, found, carried⟩, kind, domain⟩

theorem IsOffer.grows {touched : Guarded → Prop}
    (offer : n.IsOffer labels runUtility stopUtility left event) (grows : Grows touched n m) :
    m.IsOffer labels runUtility stopUtility left event := by
  obtain ⟨e, c, found, rest⟩ := offer
  obtain ⟨g, found⟩ := grows.event found
  exact ⟨_, c, found, rest⟩

/-- Decisions with different numbers of runs left are different events. -/
theorem IsOffer.left_eq {other : Nat} (offer : n.IsOffer labels runUtility stopUtility left event)
    (again : n.IsOffer labels runUtility stopUtility other event) : left = other := by
  obtain ⟨e, _, found, _, named, _⟩ := offer
  obtain ⟨e', _, found', _, named', _⟩ := again
  obtain rfl := Except.ok.inj (found.symm.trans found')
  have texts := congrArg String.toList (named.symm.trans named')
  rw [String.toList_append, String.toList_append] at texts
  have digits : Nat.toDigits 10 left = Nat.toDigits 10 other := by
    simpa [Nat.toString_eq_ofList_toDigits] using List.append_cancel_left texts
  rw [← @Nat.ofDigitChars_ten_toDigits left, digits, Nat.ofDigitChars_ten_toDigits]

end Network

namespace Edit

variable {spec : ChoiceSpec} {ids : List EpisodeId} {options : CompositionOptions}

/-- A choice that has been added is as it was specified, and no other one is new. -/
theorem addChoice_eq_ok (done : addChoice spec n = .ok choice m) :
    ∃ kind e, spec.validate n.tolerance = .ok kind ∧ m.event choice = .ok e ∧
      e.identity = (Identity.fresh "Choice" n.nextSerial).override spec.id spec.name ∧
      e.choice = some (spec.toChoice e.identity kind) ∧
      ∀ {other c}, m.choice other = .ok c → n.choice other = .ok c ∨ other = choice := by
  obtain ⟨kind, accepted, steps⟩ := Attempt.read_bind_eq_ok_iff.mp done
  obtain ⟨identity, k, identified, pushed⟩ := Attempt.bind_eq_ok_iff.mp steps
  obtain ⟨rfl, rfl⟩ := allocateAs_eq_ok_iff.mp identified
  obtain ⟨rfl, rfl⟩ := pushEvent_eq_ok_iff.mp pushed
  refine ⟨kind, _, accepted, lookup_push_self rfl, rfl, rfl, fun {other c} chosen => ?_⟩
  obtain ⟨f, found, carried⟩ := choice_eq_ok_iff.mp chosen
  rw [Network.event, lookup_eq_ok_iff, Array.getElem?_push] at found
  split at found
  next last => exact .inr (congrArg Handle.mk last)
  next => exact .inl (choice_eq_ok_iff.mpr ⟨f, lookup_eq_ok_iff.mpr found, carried⟩)

/-- A branching starts with its choice, and makes none. -/
theorem start_of_branch (done : branch choice ids options n = .ok id m) :
    (∃ e, m.episode id = .ok e ∧ e.start = choice) ∧
      Course ⟨fun _ => True, fun _ => False, fun _ _ => True⟩ n m := by
  obtain ⟨_, _, _, _, _, _, ends, _, _, _, _, _, _, _, _, composite⟩ := branch_eq_ok done
  obtain ⟨e, found, starts, _⟩ := episode_addComposite composite
  obtain ⟨g, found⟩ := episode_of_bare ends.bare found
  exact ⟨⟨_, found, starts⟩, (courses_branch choice ids options).of_ok done⟩

end Edit

/-- A call that asks for no choice brings none in. -/
theorem Call.choice_of_ok (call : Call α) {a : α}
    (asks : call.AsksFor fun _ call =>
      call.Within ⟨fun _ => True, fun _ => False, fun _ _ => True⟩)
    (done : call.run p = .ok a q) {c : Choice} (chosen : q.network.choice event = .ok c) :
    p.network.choice event = .ok c := by
  have course := (call.respects_run_under (respectedUnder_course _) asks p).network
  rw [Attempt.after_of_ok done] at course
  exact course.choice (fun _ => not_false) chosen

theorem Call.config_of_ok (call : Call α) {a : α} (done : call.run p = .ok a q) :
    q.config = p.config :=
  Attempt.after_of_ok done ▸ call.config_run p

namespace Build

variable {spec : ChoiceSpec} {children : List EpisodeId} {options : CompositionOptions}

/-- What a composition of episodes does to the network is what its operation does there. -/
theorem network_of_assemble {op : List EpisodeId → Edit EpisodeId} (idle : p.network.journal = none)
    (there : ∀ child ∈ children, ∃ e, p.network.episode child = .ok e)
    (done : assemble (children.map .episode) op p = .ok id q) :
    ∃ m, op children p.network.checkpoint = .ok id m ∧ q.network = m.commit := by
  obtain ⟨_, _, t, resolved, _, placed, rfl⟩ := assemble_eq_ok done
  obtain ⟨rfl, rfl⟩ := Prod.mk.inj (Except.ok.inj
    ((resolveComponents_episodes there).symm.trans resolved))
  obtain ⟨r, steps, rfl⟩ := atomically_eq_ok idle placed
  obtain ⟨_, _, started, steps⟩ := Attempt.bind_eq_ok_iff.mp steps
  obtain ⟨m, made, rfl⟩ := Attempt.focus_eq_ok_iff.mp started
  obtain ⟨_, _, entered, returned⟩ := Attempt.bind_eq_ok_iff.mp steps
  obtain ⟨rfl, rfl⟩ := Attempt.pure_eq_ok_iff.mp returned
  refine ⟨m, composed_eq_ok_iff.mp made, ?_⟩
  obtain ⟨_, _, ⟨_, rfl⟩ | ⟨_, rfl⟩⟩ := register_eq_ok entered <;> rfl

/-- A decision starts with a choice as it was specified, and no other one is new. -/
theorem choice_of_decide (idle : p.network.journal = none)
    (there : ∀ child ∈ children, ∃ e, p.network.episode child = .ok e)
    (done : decide spec (children.map .episode) options p = .ok id q) :
    ∃ f e c, q.network.episode id = .ok f ∧ q.network.event f.start = .ok e ∧
      e.choice = some c ∧ (∀ name, spec.id = some name → e.identity.id = name) ∧
      c.kind = .controllable ∧ c.subject.domain = spec.domain ∧ c.utilities = spec.utilities ∧
      ∀ {other d}, q.network.choice other = .ok d →
        p.network.choice other = .ok d ∨ other = f.start := by
  obtain ⟨_, _, filled, steps⟩ := Attempt.bind_eq_ok_iff.mp (decide_eq_ok done)
  obtain ⟨rfl, rfl⟩ := (yields_inherited options).of_eq_ok filled
  obtain ⟨m, made, network⟩ := network_of_assemble idle there steps
  obtain ⟨choice, k, added, branched⟩ := Attempt.bind_eq_ok_iff.mp made
  obtain ⟨kind, e, accepted, found, identity, carried, new⟩ := Edit.addChoice_eq_ok added
  obtain ⟨⟨f, made, rfl⟩, course⟩ := Edit.start_of_branch branched
  obtain ⟨e', found', same, carried'⟩ := course.keeps_event found
  obtain rfl := Option.some.inj (ChoiceSpec.of_validate accepted).1
  refine ⟨f, e', _, network ▸ made, network ▸ found', carried'.trans carried, fun name asked => ?_,
    rfl, rfl, rfl, ?_⟩
  · rw [same, identity, Identity.override_id, asked]
    rfl
  · rw [network]
    exact fun chosen => new (course.choice (fun _ => not_false) chosen)

end Build

/-! ## Calls that cannot be refused -/

theorem Node.id?_eq_none (unasked : node.given? = none) : node.id? = none := by
  cases node with
  | leaf => exact unasked
  | sequence | parallel | decide | observe => rfl

/-- A grove in which nobody has asked for an id. -/
structure Orchard (done : List Node) (p : Program) : Prop extends Grove done p where
  /-- The calls have built trees. -/
  tree : Treelike done
  /-- Only ids that come by default are found. -/
  named : Named done p
  /-- No id has been asked for. -/
  anonymous : ∀ node ∈ done, node.id? = none

theorem orchard_ofConfig (config : Config) : Orchard [] (.ofConfig config) := by
  have named : Named [] (.ofConfig config) := Named.ofConfig config
  exact ⟨grove_nil (Program.blank_ofConfig config), ⟨fun _ _ made => by simp at made, .nil⟩, named,
    List.forall_mem_nil _⟩

/-- What a call has done that made one more node of an orchard. -/
structure Program.Plants (done : List Node) (node : Node) (p : Program) (id : EpisodeId)
    (q : Program) : Prop where
  /-- The episode is the newest one. -/
  handle : id = ⟨done.length⟩
  /-- It is in the orchard. -/
  orchard : Orchard (done ++ [node]) q
  /-- What was there has grown. -/
  grows : Grows (fun _ => True) p.network q.network

namespace Orchard

variable (orchard : Orchard done p) (roots : ∀ child ∈ node.children, IsRoot done child)
  (once : node.children.Nodup)

include orchard

theorem exists_episode (roots : ∀ child ∈ node.children, IsRoot done child) :
    ∀ child ∈ node.children, ∃ e, p.network.episode child = .ok e :=
  fun child inside => (orchard.ready child (roots child inside)).exists_episode

theorem free : ∀ serial, p.network.nextSerial ≤ serial →
    p.registry.get? (Identity.defaultId "Episode" serial) = none :=
  fun _ => Named.get?_defaultId_eq_none orchard.named orchard.anonymous

include roots once

theorem plants (unasked : node.given? = none) (grown : Program.Grown node p id e q) :
    Program.Plants done node p id q := by
  have none := Node.id?_eq_none unasked
  have tree : Treelike (done ++ [node]) := orchard.tree.append roots once
  obtain ⟨last, grove⟩ := orchard.grow tree grown
  refine ⟨last, ⟨grove, tree, Named.grow orchard.named (unasked.trans none.symm) grown, ?_⟩,
    grown.made.grows.mono fun _ _ _ => trivial⟩
  exact List.forall_mem_append.mpr ⟨orchard.anonymous, List.forall_mem_singleton.mpr none⟩

/-- Roots that are not composed stay roots. -/
theorem isRoot_append_iff : IsRoot (done ++ [node]) id ↔
    id = ⟨done.length⟩ ∨ IsRoot done id ∧ id ∉ node.children :=
  (orchard.tree.append roots once).isRoot_append_iff

/-- A call that is as it should be adds a node. -/
theorem yields_call (plain : node.Plain) (unasked : node.given? = none) :
    node.call.Yields p fun id q => Program.Plants done node p id q := by
  obtain ⟨ready, apart⟩ := orchard.composable (orchard.tree.append roots once)
  refine (Node.yields_call orchard.idle ready apart plain fun serial new => ?_).mono
    fun id q ⟨e, grown⟩ => orchard.plants roots once unasked grown
  rw [unasked]
  exact orchard.free serial new

omit roots once

/-- So does a decision of a loop between two trees. -/
theorem yields_decide (differ : labels.run ≠ labels.stop) {first second : EpisodeId}
    (isRoot : IsRoot done first) (isRoot' : IsRoot done second) (apart : first ≠ second) :
    (Node.decide (labels.spec runUtility stopUtility left) [first, second] {}).call.Yields p
      fun id q => Program.Plants done
        (.decide (labels.spec runUtility stopUtility left) [first, second] {}) p id q := by
  have roots : ∀ child ∈ [first, second], IsRoot done child := by simp [isRoot, isRoot']
  have once : [first, second].Nodup := by simp [apart]
  let node := Node.decide (labels.spec runUtility stopUtility left) [first, second] {}
  have tree : Treelike (done ++ [node]) := orchard.tree.append roots once
  obtain ⟨ready, disjoint⟩ := orchard.composable tree
  exact (Node.yields_decide orchard.idle ready disjoint (.inl rfl) (LoopLabels.validate_spec differ)
    rfl CompositionOptions.plain_default orchard.free).mono
    fun id q ⟨e, grown⟩ => orchard.plants roots once rfl grown

end Orchard

end PlanNetwork
