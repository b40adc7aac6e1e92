/-
# Calls that make an episode

A call of a program that makes an episode does so on the network and registers
the id of the episode. Whatever the call was, its episode is new and is found by
its id afterwards. The call succeeds if the network operation does and the id is
not taken.
-/

import PlanNetwork.Proofs.Composition.Steps
import PlanNetwork.Proofs.Program.BottomUp
import PlanNetwork.Proofs.Program.Reading

namespace PlanNetwork

open Network

variable {p q : Program} {n k m : Network} {id : EpisodeId} {e : Episode}

namespace Network

variable {touched : Guarded → Prop}

/-- The episode is what the node asks for. -/
def Answers (n : Network) (e : Episode) : Node → Prop
  | .leaf _ => e.composition = .primitive
  | .sequence children _ => e.composition = .sequence children
  | .parallel children _ => e.composition = .parallel children
  | .decide spec children _ | .observe spec children _ =>
    e.composition = .branching e.start children ∧ ∃ serial, n.IsChoice e.start spec.domain serial

theorem Answers.episodes_eq {node : Node} (answers : n.Answers e node) :
    e.composition.episodes = node.children := by
  cases node with
  | leaf | sequence | parallel => rw [show e.composition = _ from answers]; rfl
  | decide | observe => rw [answers.1]; rfl

theorem Answers.grows {node : Node} (answers : n.Answers e node) (grows : Grows touched n m)
    (g : Guard) : m.Answers { e with guard := g } node := by
  have kept {domain : List String} {serial : Nat} (decided : n.IsChoice e.start domain serial) :
      m.IsChoice e.start domain serial := by
    obtain ⟨event, c, found, rest⟩ := decided
    obtain ⟨g, found'⟩ := grows.event found
    exact ⟨_, c, found', rest⟩
  cases node with
  | leaf | sequence | parallel => exact answers
  | decide | observe =>
    obtain ⟨composition, serial, decided⟩ := answers
    exact ⟨composition, serial, kept decided⟩

end Network

namespace Program

/-- A call has made the episode of a node and registered its id. -/
structure Grown (node : Node) (p : Program) (id : EpisodeId) (e : Episode) (q : Program) :
    Prop where
  /-- The episode has been made out of those it is to be made of. -/
  made : Made (fun element => ∃ child ∈ node.children, element ∈ p.network.parts child)
    node.given? node.children p.network q.network id e
  /-- It is what the node asks for. -/
  answers : q.network.Answers e node
  /-- It is found by its id. -/
  registered : q.registry.get? e.identity.id = some id
  /-- What an id names, it still names. -/
  older : ∀ {name known}, p.registry.get? name = some known → q.registry.get? name = some known
  /-- No other id names anything that it did not name before. -/
  newer : ∀ {name known}, q.registry.get? name = some known →
    name = e.identity.id ∨ p.registry.get? name = some known
  /-- The user's constraints are the same. -/
  user : q.userConstraints = p.userConstraints
  /-- Nothing is left to be undone. -/
  idle : q.network.journal = none

end Program

namespace Build

/-- What the network operation of a call has done that makes the episode of a node. -/
def Makes (node : Node) (k : Network) (id : EpisodeId) (m : Network) : Prop :=
  ∃ e, Made (fun element => ∃ child ∈ node.children, element ∈ k.parts child) node.given?
    node.children k m id e ∧ m.Answers e node

/-- An operation that has made an episode and registered its id. -/
theorem grown_of_placed {node : Node} {op : Edit EpisodeId} (idle : p.network.journal = none)
    (makes : ∀ {k id m}, Same p.network k → op k = .ok id m → Makes node k id m)
    (done : atomically (placed op) p = .ok id q) : ∃ e, Program.Grown node p id e q := by
  unfold atomically at done
  rw [if_neg (by simp [idle])] at done
  obtain ⟨last, steps, rfl⟩ := Attempt.bracket_eq_ok_iff.mp done
  obtain ⟨_, _, started, steps⟩ := Attempt.bind_eq_ok_iff.mp steps
  obtain ⟨m, made, rfl⟩ := Attempt.focus_eq_ok_iff.mp started
  obtain ⟨_, _, entered, steps⟩ := Attempt.bind_eq_ok_iff.mp steps
  obtain ⟨rfl, rfl⟩ := Attempt.pure_eq_ok_iff.mp steps
  have same := same_checkpoint p.network
  obtain ⟨e, made, answers⟩ := makes same made
  have parts : ∀ element, (∃ child ∈ node.children, element ∈ p.network.checkpoint.parts child) →
      ∃ child ∈ node.children, element ∈ p.network.parts child := by
    rintro element ⟨child, inside, part⟩
    exact ⟨child, inside, parts_of_bare same.bare child ▸ part⟩
  obtain ⟨e', found, entry⟩ := register_eq_ok entered
  obtain rfl := Except.ok.inj (made.owns.found.symm.trans found)
  have made := ((made.of_same same).mono parts).commit
  have answers := answers.grows (same_commit m).adds.toGrows e.guard
  rcases entry with ⟨free, rfl⟩ | ⟨held, rfl⟩
  · refine ⟨e, made, answers, OrdMap.get?_insert_self, OrdMap.get?_insert_of_get?_eq_none free,
      fun {name known} found => ?_, rfl, rfl⟩
    exact (OrdMap.of_get?_insert_eq_some found).symm.imp_left And.left
  · exact ⟨e, made, answers, held, fun found => found, .inr, rfl, rfl⟩

/-- An operation that makes an episode is followed by the registration of its id. -/
theorem yields_placed {node : Node} {op : Edit EpisodeId} (idle : p.network.journal = none)
    (free : ∀ serial, p.network.nextSerial ≤ serial →
      p.registry.get? (node.given?.getD (Identity.defaultId "Episode" serial)) = none)
    (makes : ∀ k, Same p.network k → op.Yields k (Makes node k)) :
    (atomically (placed op)).Yields p fun id q => ∃ e, Program.Grown node p id e q := by
  have same := same_checkpoint p.network
  obtain ⟨id, m, done, e, made, _⟩ := makes _ same
  have started : onNetwork op (p.mapNetwork .checkpoint) = .ok id (p.withNetwork m) :=
    Attempt.focus_eq_ok_iff.mpr ⟨m, done, rfl⟩
  obtain ⟨serial, le, _, named⟩ := made.named
  have unused : p.registry.get? e.identity.id = none := by
    rw [named]
    exact free serial le
  have entered : (register id).Yields (p.withNetwork m) fun _ _ => True := by
    refine Attempt.yields_read made.owns.found (Attempt.yields_get ?_)
    dsimp only [Program.withNetwork]
    rw [unused]
    exact Attempt.yields_modify trivial
  obtain ⟨_, last, entered, _⟩ := entered
  have whole : atomically (placed op) p = .ok id (last.mapNetwork .commit) := by
    unfold atomically
    rw [if_neg (by simp [idle])]
    exact Attempt.bracket_eq_ok_iff.mpr ⟨last, Attempt.bind_eq_ok_iff.mpr ⟨id, _, started,
      Attempt.bind_eq_ok_iff.mpr ⟨(), _, entered, rfl⟩⟩, rfl⟩
  exact ⟨id, _, whole,
    grown_of_placed idle (fun same done => (makes _ same).of_eq_ok done) whole⟩

/-- Episodes bring no constraints with them. -/
theorem resolveComponents_episodes {children : List EpisodeId}
    (there : ∀ child ∈ children, ∃ e, p.network.episode child = .ok e) :
    p.resolveComponents ∅ (children.map .episode) = .ok (children, ∅) := by
  induction children with
  | nil => rfl
  | cons child rest ih =>
    obtain ⟨e, found⟩ := there child (List.mem_cons_self ..)
    have others := ih fun child member => there child (List.mem_cons_of_mem _ member)
    simp only [List.map_cons, Program.resolveComponents, found, bind, Except.bind, others]
    rfl

/-- Without constraints to be taken over, nothing is to be refreshed. -/
theorem composed_eq_ok_iff {op : List EpisodeId → Edit EpisodeId} {children : List EpisodeId} :
    composed op children ∅ k = .ok id m ↔ op children k = .ok id m := by
  constructor
  · intro done
    obtain ⟨_, _, made, done⟩ := Attempt.bind_eq_ok_iff.mp done
    obtain ⟨_, _, none, done⟩ := Attempt.bind_eq_ok_iff.mp done
    obtain ⟨_, rfl⟩ := Attempt.pure_eq_ok_iff.mp none
    obtain ⟨rfl, rfl⟩ := Attempt.pure_eq_ok_iff.mp done
    exact made
  · exact fun made => Attempt.bind_eq_ok_iff.mpr ⟨id, m, made, rfl⟩

section Assemble

variable {node : Node} {op : List EpisodeId → Edit EpisodeId} (idle : p.network.journal = none)
  (there : ∀ child ∈ node.children, ∃ e, p.network.episode child = .ok e)

include idle there

/-- A composition that has made an episode has composed something. -/
theorem grown_of_assemble
    (makes : ∀ {k id m}, node.children ≠ [] → Same p.network k → op node.children k = .ok id m →
      Makes node k id m)
    (done : assemble (node.children.map .episode) op p = .ok id q) :
    ∃ e, Program.Grown node p id e q := by
  obtain ⟨_, _, k, resolved, empty, placed, rfl⟩ := assemble_eq_ok done
  obtain ⟨rfl, rfl⟩ := Prod.mk.inj (Except.ok.inj ((resolveComponents_episodes there).symm.trans resolved))
  have nonempty : node.children ≠ [] := by simpa using empty
  obtain ⟨e, grown⟩ := grown_of_placed idle
    (fun same done => makes nonempty same (composed_eq_ok_iff.mp done)) placed
  exact ⟨e, grown.made, grown.answers, grown.registered, grown.older, grown.newer, grown.user,
    grown.idle⟩

theorem yields_assemble (nonempty : node.children ≠ [])
    (free : ∀ serial, p.network.nextSerial ≤ serial →
      p.registry.get? (node.given?.getD (Identity.defaultId "Episode" serial)) = none)
    (makes : ∀ k, Same p.network k → (op node.children).Yields k (Makes node k)) :
    (assemble (node.children.map .episode) op).Yields p fun id q => ∃ e,
      Program.Grown node p id e q := by
  refine Attempt.yields_read (resolveComponents_episodes there) ?_
  have some : node.children.isEmpty = false := by simpa using nonempty
  show Attempt.Yields (if node.children.isEmpty then _ else _) _ _
  rw [some]
  have makes' : ∀ k, Same p.network k →
      (composed op node.children ∅).Yields k (Makes node k) := by
    intro k same
    obtain ⟨id, m, done, made⟩ := makes k same
    exact ⟨id, m, composed_eq_ok_iff.mpr done, made⟩
  refine (yields_placed idle free makes').bind fun id q ⟨e, grown⟩ => ?_
  exact ⟨id, _, rfl, e, grown.made, grown.answers, grown.registered, grown.older, grown.newer,
    grown.user, grown.idle⟩

end Assemble

theorem yields_inherited (options : CompositionOptions) :
    (inherited options).Yields p fun filled q =>
      q = p ∧ filled = options.inherit p.config.noWait p.config.mode :=
  ⟨_, p, rfl, rfl, rfl⟩

/-- A decision is between branches of a new choice that the executive makes. -/
theorem decide_eq_ok {spec : ChoiceSpec} {components : List Component}
    {options : CompositionOptions} (done : decide spec components options p = .ok id q) :
    branchNew { spec with kind := some .controllable } components options p = .ok id q := by
  unfold decide at done
  rcases selected : spec.kind with _ | kind
  · rwa [selected] at done
  · rw [selected] at done
    cases kind with
    | controllable => exact done
    | _ => cases done

/-- An observation is between branches of a new choice. -/
theorem observe_eq_ok {spec : ChoiceSpec} {components : List Component}
    {options : CompositionOptions} (done : observe spec components options p = .ok id q) :
    branchNew spec components options p = .ok id q := by
  unfold observe at done
  rcases selected : spec.kind with _ | kind
  · rw [selected] at done
    cases done
  · rw [selected] at done
    cases kind with
    | controllable => cases done
    | _ => exact done

section Node

variable {node : Node} {spec : ChoiceSpec} {kind : Controllability} {children : List EpisodeId}
  {options : CompositionOptions} {noWait : Bool} {mode : SequenceMode} {bound : Nat}

theorem unanchored_inherit (unanchored : options.Unanchored) :
    (options.inherit noWait mode).Unanchored :=
  ⟨unanchored.start, unanchored.finish⟩

variable (inside : node.children = children) (named : node.given? = options.id)
  (answers : ∀ {n : Network} {e : Episode} {serial : Nat},
    e.composition = .branching e.start children → n.IsChoice e.start spec.domain serial →
    n.Answers e node)
  (idle : p.network.journal = none) (unanchored : options.Unanchored)
  (ready : ∀ child ∈ children, p.network.Ready p.network.nextSerial child)
  (apart : children.Pairwise fun a b =>
    ∀ element ∈ p.network.parts a, element ∉ p.network.parts b)

include inside named answers idle unanchored ready apart

/-- A choice between branches that are ready and have no part in common. -/
theorem yields_branchNew
    (accepted : ∀ tolerance,
      ChoiceSpec.validate { spec with kind := some kind } tolerance = .ok kind)
    (covered : spec.domain.length = children.length)
    (timed : ∃ bounds, (options.duration.getD .unconstrained).resolve = .ok bounds)
    (free : ∀ serial, p.network.nextSerial ≤ serial →
      p.registry.get? (node.given?.getD (Identity.defaultId "Episode" serial)) = none) :
    (branchNew { spec with kind := some kind } (children.map .episode) options).Yields p
      fun id q => ∃ e, Program.Grown node p id e q := by
  have nonempty : children ≠ [] := by
    rintro rfl
    exact (ChoiceSpec.of_validate (accepted p.network.tolerance)).2.1
      (List.length_eq_zero_iff.mp covered)
  obtain ⟨bounds, resolved⟩ := timed
  refine (yields_inherited options).bind ?_
  rintro _ q ⟨rfl, rfl⟩
  subst inside
  refine yields_assemble idle (fun child member => (ready child member).exists_episode) nonempty
    free fun k same => ?_
  rw [← funext (parts_of_bare same.bare)] at apart
  refine (Edit.yields_branchNew (unanchored_inherit unanchored) resolved
    (accepted k.tolerance) covered
    (fun child member => (ready child member).adds same.adds) same.adds.serial apart).mono
    fun id m ⟨e, made, composed, decided⟩ => ⟨e, ?_, answers composed decided⟩
  rwa [named]

/-- What a choice between such branches has done. -/
theorem grown_of_branchNew
    (done : branchNew spec (children.map .episode) options p = .ok id q) :
    ∃ e, Program.Grown node p id e q := by
  obtain ⟨_, _, filled, done⟩ := Attempt.bind_eq_ok_iff.mp done
  obtain ⟨rfl, rfl⟩ := (yields_inherited options).of_eq_ok filled
  subst inside
  refine grown_of_assemble idle (fun child member => (ready child member).exists_episode)
    (fun _ same done => ?_) done
  rw [← funext (parts_of_bare same.bare)] at apart
  obtain ⟨e, made, composed, decided⟩ := Edit.made_of_branchNew (unanchored_inherit unanchored)
    (fun child member => (ready child member).adds same.adds) same.adds.serial apart done
  refine ⟨e, ?_, answers composed decided⟩
  rwa [named]

end Node

end Build

namespace Node

/-- A decision succeeds if its choice is accepted, its branches are ready and have no part
in common, and its id is free. -/
theorem yields_decide {spec : ChoiceSpec} {children : List EpisodeId}
    {options : CompositionOptions} (idle : p.network.journal = none)
    (ready : ∀ child ∈ children, p.network.Ready p.network.nextSerial child)
    (apart : children.Pairwise fun a b =>
      ∀ element ∈ p.network.parts a, element ∉ p.network.parts b)
    (kind : spec.kind = none ∨ spec.kind = some .controllable)
    (accepted : ∀ tolerance, ChoiceSpec.validate { spec with kind := some .controllable } tolerance =
      .ok .controllable)
    (covered : spec.domain.length = children.length) (plain : options.Plain)
    (free : ∀ serial, p.network.nextSerial ≤ serial →
      p.registry.get? (options.id.getD (Identity.defaultId "Episode" serial)) = none) :
    (decide spec children options).call.Yields p fun id q => ∃ e,
      Program.Grown (.decide spec children options) p id e q := by
  have chosen : call (.decide spec children options) = Build.branchNew
      { spec with kind := some .controllable } (children.map .episode) options := by
    rcases kind with kind | kind <;> simp only [call, Build.decide, kind]
  rw [chosen]
  exact Build.yields_branchNew rfl rfl (fun composed decided => ⟨composed, _, decided⟩) idle
    plain.unanchored ready apart accepted covered plain.duration free

variable {node : Node} (idle : p.network.journal = none)
  (ready : ∀ child ∈ node.children, p.network.Ready p.network.nextSerial child)
  (apart : node.children.Pairwise fun a b =>
    ∀ element ∈ p.network.parts a, element ∉ p.network.parts b)

include idle ready apart

/-- What a call has done that was given no events, if what it composed was ready
and had no part in common. -/
theorem grown_of_call (unanchored : node.Unanchored) (done : node.call p = .ok id q) :
    ∃ e, Program.Grown node p id e q := by
  have there : ∀ child ∈ node.children, ∃ e, p.network.episode child = .ok e :=
    fun child member => (ready child member).exists_episode
  cases node with
  | leaf spec =>
    refine Build.grown_of_placed idle (fun _ done => ?_) done
    obtain ⟨e, made, primitive⟩ := Edit.made_of_addEpisode unanchored done
    exact ⟨e, made.mono fun _ => False.elim, primitive⟩
  | sequence children options =>
    obtain ⟨_, _, filled, done⟩ := Attempt.bind_eq_ok_iff.mp done
    obtain ⟨rfl, rfl⟩ := (Build.yields_inherited options).of_eq_ok filled
    refine @Build.grown_of_assemble _ _ _ (.sequence children options) _ idle there
      (fun nonempty same done => ?_) done
    obtain ⟨e, made, composed⟩ := Edit.made_of_sequence (Build.unanchored_inherit unanchored)
      nonempty (fun child member => (ready child member).adds same.adds) same.adds.serial done
    exact ⟨e, made.mono fun _ => False.elim, composed⟩
  | parallel children options =>
    obtain ⟨_, _, filled, done⟩ := Attempt.bind_eq_ok_iff.mp done
    obtain ⟨rfl, rfl⟩ := (Build.yields_inherited options).of_eq_ok filled
    refine @Build.grown_of_assemble _ _ _ (.parallel children options) _ idle there
      (fun nonempty same done => ?_) done
    obtain ⟨e, made, composed⟩ := Edit.made_of_parallel (Build.unanchored_inherit unanchored)
      nonempty (fun child member => (ready child member).adds same.adds) same.adds.serial done
    exact ⟨e, made.mono fun _ => False.elim, composed⟩
  | decide spec children options =>
    have done : Build.decide spec (children.map .episode) options p = .ok id q := done
    refine Build.grown_of_branchNew rfl rfl ?_ idle unanchored ready apart
      (Build.decide_eq_ok done)
    exact fun composed decided => ⟨composed, _, decided⟩
  | observe spec children options =>
    have done : Build.observe spec (children.map .episode) options p = .ok id q := done
    refine Build.grown_of_branchNew rfl rfl ?_ idle unanchored ready apart
      (Build.observe_eq_ok done)
    exact fun composed decided => ⟨composed, _, decided⟩

/-- A call that is as it should be succeeds if what it composes is ready and has
no part in common, and its id is free. -/
theorem yields_call (plain : node.Plain)
    (free : ∀ serial, p.network.nextSerial ≤ serial →
      p.registry.get? (node.given?.getD (Identity.defaultId "Episode" serial)) = none) :
    node.call.Yields p fun id q => ∃ e, Program.Grown node p id e q := by
  have there : ∀ child ∈ node.children, ∃ e, p.network.episode child = .ok e :=
    fun child member => (ready child member).exists_episode
  cases node with
  | leaf spec =>
    obtain ⟨bounds, resolved⟩ := EpisodeSpec.Plain.duration plain
    refine Build.yields_placed idle free fun k _ => ?_
    exact (Edit.yields_addEpisode plain.unanchored (plain.fits k) resolved).mono
      fun id m ⟨e, made, primitive⟩ => ⟨e, made.mono fun _ => False.elim, primitive⟩
  | sequence children options =>
    obtain ⟨nonempty, plain⟩ := plain
    obtain ⟨bounds, resolved⟩ := plain.duration
    refine (Build.yields_inherited options).bind ?_
    rintro _ q ⟨rfl, rfl⟩
    refine @Build.yields_assemble q (.sequence children options) _ idle there nonempty free
      fun k same => ?_
    refine (Edit.yields_sequence (Build.unanchored_inherit plain.unanchored) resolved nonempty
      (fun child member => (ready child member).adds same.adds) same.adds.serial).mono
      fun id m ⟨e, made, composed⟩ => ⟨e, made.mono fun _ => False.elim, composed⟩
  | parallel children options =>
    obtain ⟨nonempty, plain⟩ := plain
    obtain ⟨bounds, resolved⟩ := plain.duration
    refine (Build.yields_inherited options).bind ?_
    rintro _ q ⟨rfl, rfl⟩
    refine @Build.yields_assemble q (.parallel children options) _ idle there nonempty free
      fun k same => ?_
    refine (Edit.yields_parallel (Build.unanchored_inherit plain.unanchored) resolved nonempty
      (fun child member => (ready child member).adds same.adds) same.adds.serial).mono
      fun id m ⟨e, made, composed⟩ => ⟨e, made.mono fun _ => False.elim, composed⟩
  | decide spec children options =>
    obtain ⟨kind, simple, covered, plain⟩ := plain
    exact yields_decide idle ready apart kind ((simple.withKind _).validate rfl) covered plain free
  | observe spec children options =>
    obtain ⟨⟨kind, selected, differs⟩, simple, covered, plain⟩ := plain
    have chosen : call (.observe spec children options) = Build.branchNew
        { spec with kind := some kind } (children.map .episode) options := by
      have same : spec = { spec with kind := some kind } := by rw [← selected]
      cases kind with
      | controllable => exact (differs rfl).elim
      | _ => simp only [call, Build.observe, selected, ← same]
    rw [chosen]
    exact Build.yields_branchNew rfl rfl (fun composed decided => ⟨composed, _, decided⟩) idle
      plain.unanchored ready apart ((simple.withKind _).validate rfl) covered plain.duration free

end Node

end PlanNetwork
