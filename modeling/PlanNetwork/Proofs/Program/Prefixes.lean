/-
# What a loop executes

A decision of a loop has two branches, and the one that goes on is where the rounds inside it
are. So a run occurs where its decision and all decisions around it have the value to run: the
runs that occur are those of the leading rounds that go on. Behind them is the round that does
not, if there is one, and its way out is the only one that occurs.

This is read off the paths: the one to a round is that to the round around it with one literal
behind it, whatever the composites in between.
-/

import PlanNetwork.Proofs.Network.Occurrence
import PlanNetwork.Proofs.Program.Naming
import PlanNetwork.Proofs.Program.Propagation
import PlanNetwork.Proofs.Program.Unrolling

namespace PlanNetwork

open Network

variable {V : Vocabulary} {v : Valuation V} {n : Network} {p q : Program} {done nodes : List Node}
  {id inner root : EpisodeId} {labels : LoopLabels} {runUtility stopUtility : Number}
  {literals : List Literal} {round : Round} {rounds : List Round}

namespace Network

/-- Whether the choice of a round has the value to run. -/
def continues (n : Network) (labels : LoopLabels) (v : Valuation V) (round : Round) : Bool :=
  match n.choice round.choice with
  | .ok c => v.value c.subject.key == labels.run
  | .error _ => false

/-- The rounds of a loop are there, and nothing else is chosen. -/
structure HasRounds (n : Network) (labels : LoopLabels) (runUtility stopUtility : Number)
    (rounds : List Round) : Prop where
  /-- The choice of a round is called after the runs that are left. -/
  offers : ∀ i round, rounds[i]? = some round →
    n.IsOffer labels runUtility stopUtility (rounds.length - i) round.choice
  /-- No choice belongs to two rounds. -/
  once : (rounds.map (·.choice)).Nodup
  /-- There are no other choices. -/
  only : ∀ {event c}, n.choice event = .ok c → event ∈ rounds.map (·.choice)
  /-- A round decides by its choice, and its way out is what the second value selects. -/
  decides : ∀ round ∈ rounds, ∃ e inner, n.episode round.decision = .ok e ∧
    e.composition = .branching round.choice [inner, round.stop]
  /-- Its run and its way out are primitive. -/
  primitive : ∀ round ∈ rounds, ∀ id ∈ [round.run, round.stop],
    ∃ e, n.episode id = .ok e ∧ e.isPrimitive = true

namespace HasRounds

variable (has : n.HasRounds labels runUtility stopUtility rounds)

include has

/-- All choices are between running and stopping. -/
theorem domain_eq {event : EventId} {c : Choice} (chosen : n.choice event = .ok c) :
    c.subject.domain = [labels.run, labels.stop] := by
  obtain ⟨round, member, rfl⟩ := List.mem_map.mp (has.only chosen)
  obtain ⟨i, at_i⟩ := List.mem_iff_getElem?.mp member
  obtain ⟨c', chosen', _, domain⟩ := (has.offers i round at_i).has_choice
  obtain rfl := Except.ok.inj (chosen.symm.trans chosen')
  exact domain

/-- So there are valuations of them. -/
theorem exists_suits (differ : labels.run ≠ labels.stop) : ∃ V : Vocabulary, V.Suits n :=
  ⟨⟨fun _ => [labels.run, labels.stop], fun _ => List.cons_ne_nil _ _, fun _ => by simp [differ]⟩,
    fun chosen => (has.domain_eq chosen).symm⟩

end HasRounds

end Network

/-! ## Down the chain -/

/-- What a path leads to occurs where all its values are taken. -/
theorem Forest.occurs_iff (forest : Forest nodes p) (isRoot : IsRoot nodes root)
    (path : p.network.Path nodes root id literals) :
    p.network.Occurs v (.episode id) ↔ ∀ a ∈ literals, a.Holds v := by
  have settled := forest.settled isRoot path
  obtain ⟨e, owns⟩ := settled.owns
  exact (occurs_iff_of_support owns.episode).trans (Support.holds_ofPath settled.path.toIsPath)

namespace Round

/-- A round is known with its choice. -/
structure Known (n : Network) (labels : LoopLabels) (round : Round) : Prop where
  /-- The choice is between the two values. -/
  choice : ∃ c, n.choice round.choice = .ok c ∧ c.subject.domain = [labels.run, labels.stop]
  /-- The composite begins with it. -/
  starts : ∃ e, n.episode round.decision = .ok e ∧ e.start = round.choice

section Paths

variable (forest : Forest nodes q) (isRoot : IsRoot nodes root) (suits : V.Suits q.network)
  (v : Valuation V) (differ : labels.run ≠ labels.stop)

include forest isRoot suits differ

/-- From its decision, a round forks into the inner episode, where it goes on, and the way
out, where it does not. -/
theorem Decides.forks (decides : round.Decides nodes labels inner)
    (known : round.Known q.network labels)
    (path : q.network.Path nodes root round.decision literals) :
    ∃ longer, q.network.Path nodes root inner longer ∧
      ((∀ a ∈ longer, a.Holds v) ↔
        (∀ a ∈ literals, a.Holds v) ∧ q.network.continues labels v round = true) ∧
      (q.network.Occurs v (.episode round.stop) ↔
        (∀ a ∈ literals, a.Holds v) ∧ q.network.continues labels v round = false) := by
  obtain ⟨c, chosen, domain⟩ := known.choice
  obtain ⟨e, found, starts⟩ := known.starts
  obtain ⟨spec, same, made⟩ := decides.decision
  have decided : q.network.Decides round.decision c.subject := ⟨e, c, found, starts ▸ chosen, rfl⟩
  have branches : spec.domain.zip [inner, round.stop] =
      [(labels.run, inner), (labels.stop, round.stop)] := by
    rw [same]
    rfl
  have on : q.network.Path nodes root inner (literals ++ [.is c.subject labels.run]) :=
    path.branch made rfl decided (branches ▸ List.mem_cons_self ..)
  have off : q.network.Path nodes root round.stop (literals ++ [.is c.subject labels.stop]) :=
    path.branch made rfl decided (branches ▸ List.mem_cons_of_mem _ (List.mem_singleton_self _))
  have goes : q.network.continues labels v round = true ↔ v.value c.subject.key = labels.run := by
    simp [continues, chosen]
  have value := v.mem c.subject.key
  rw [suits chosen, domain] at value
  have stops : q.network.continues labels v round = false ↔
      v.value c.subject.key = labels.stop := by
    rw [← Bool.not_eq_true, goes]
    rcases List.mem_pair.mp value with same | same <;> simp [same, differ, differ.symm]
  refine ⟨_, on, ?_, (forest.occurs_iff isRoot off).trans ?_⟩
  · rw [List.forall_mem_append, List.forall_mem_singleton, goes]
    exact Iff.rfl
  · rw [List.forall_mem_append, List.forall_mem_singleton, stops]
    exact Iff.rfl

/-- Where the path to the first decision cannot be gone, nothing runs and nothing stops. -/
theorem Chain.unreached (chain : Chain nodes labels rounds)
    (known : ∀ round ∈ rounds, round.Known q.network labels) {first : Round}
    (head : rounds.head? = some first)
    (path : q.network.Path nodes root first.decision literals)
    (fails : ¬ ∀ a ∈ literals, a.Holds v) :
    ∀ round ∈ rounds, ¬ q.network.Occurs v (.episode round.run) ∧
      ¬ q.network.Occurs v (.episode round.stop) := by
  induction chain generalizing first literals with
  | @last round decides =>
    obtain rfl := Option.some.inj head
    obtain ⟨longer, on, goes, stops⟩ :=
      decides.forks forest isRoot suits v differ (known _ (List.mem_singleton_self _)) path
    have runs : q.network.Occurs v _ ↔ _ := (forest.occurs_iff isRoot on).trans goes
    exact List.forall_mem_singleton.mpr
      ⟨fun occurs => fails (runs.mp occurs).1, fun occurs => fails (stops.mp occurs).1⟩
  | @more round next rest inner decides follows _ ih =>
    obtain rfl := Option.some.inj head
    obtain ⟨known, others⟩ := List.forall_mem_cons.mp known
    obtain ⟨longer, on, goes, stops⟩ := decides.forks forest isRoot suits v differ known path
    have first := on.series follows rfl (List.mem_cons_self ..)
    have second := on.series follows rfl (List.mem_cons_of_mem _ (List.mem_singleton_self _))
    have runs : q.network.Occurs v _ ↔ _ := (forest.occurs_iff isRoot first).trans goes
    have ended : ¬ ∀ a ∈ longer, a.Holds v := fun lasts => fails (goes.mp lasts).1
    exact List.forall_mem_cons.mpr ⟨⟨fun occurs => fails (runs.mp occurs).1,
      fun occurs => fails (stops.mp occurs).1⟩, ih others rfl second ended⟩

/-- Where it can be gone, the leading rounds that go on run, and the next one stops. -/
theorem Chain.occurs (chain : Chain nodes labels rounds)
    (known : ∀ round ∈ rounds, round.Known q.network labels) {first : Round}
    (head : rounds.head? = some first)
    (path : q.network.Path nodes root first.decision literals)
    (holds : ∀ a ∈ literals, a.Holds v) :
    (rounds.filter fun round => q.network.Occurs v (.episode round.run)) =
        rounds.takeWhile (q.network.continues labels v) ∧
      (rounds.filter fun round => q.network.Occurs v (.episode round.stop)) =
        (rounds.dropWhile (q.network.continues labels v)).take 1 := by
  induction chain generalizing first literals with
  | @last round decides =>
    obtain rfl := Option.some.inj head
    obtain ⟨longer, on, goes, stops⟩ :=
      decides.forks forest isRoot suits v differ (known _ (List.mem_singleton_self _)) path
    rw [and_iff_right holds] at goes stops
    have runs : q.network.Occurs v _ ↔ _ := (forest.occurs_iff isRoot on).trans goes
    cases choice : q.network.continues labels v round <;> simp [runs, stops, choice]
  | @more round next rest inner decides follows later ih =>
    obtain rfl := Option.some.inj head
    obtain ⟨known, others⟩ := List.forall_mem_cons.mp known
    obtain ⟨longer, on, goes, stops⟩ := decides.forks forest isRoot suits v differ known path
    rw [and_iff_right holds] at goes stops
    have first := on.series follows rfl (List.mem_cons_self ..)
    have second := on.series follows rfl (List.mem_cons_of_mem _ (List.mem_singleton_self _))
    have runs : q.network.Occurs v _ ↔ _ := (forest.occurs_iff isRoot first).trans goes
    cases choice : q.network.continues labels v round with
    | false =>
      -- the rounds behind are out of reach
      have ended : ¬ ∀ a ∈ longer, a.Holds v := by simp [goes, choice]
      have behind := later.unreached forest isRoot suits v differ others rfl second ended
      have noRun : ((next :: rest).filter fun round => q.network.Occurs v (.episode round.run)) =
          [] := List.filter_eq_nil_iff.mpr fun other member => by simp [behind other member]
      have noStop : ((next :: rest).filter fun round => q.network.Occurs v (.episode round.stop)) =
          [] := List.filter_eq_nil_iff.mpr fun other member => by simp [behind other member]
      rw [List.filter_cons, noRun, List.filter_cons, noStop]
      simp [runs, stops, choice]
    | true =>
      obtain ⟨run, stop⟩ := ih others rfl second (goes.mpr choice)
      rw [List.filter_cons, run, List.filter_cons, stop]
      simp [runs, stops, choice]

end Paths

/-! ## What is in the chain -/

theorem within_leaf_iff {spec : EpisodeSpec} {leaf : EpisodeId}
    (made : nodes[leaf.index]? = some (.leaf spec)) : Within nodes leaf id ↔ id = leaf := by
  simp [within_iff_of_made made, Node.children]

/-- In the tree of a decision are itself, what is in the inner episode, and the way out. -/
theorem Decides.within_iff (decides : round.Decides nodes labels inner) :
    Within nodes round.decision id ↔
      id = round.decision ∨ Within nodes inner id ∨ id = round.stop := by
  obtain ⟨_, stop, _, _, made⟩ := decides
  simp [within_iff_of_made made, Node.children, within_leaf_iff stop]

/-- If another decision follows its run, those are the run and what is in that one. -/
theorem Decides.within_iff_of_follows {next : Round} (decides : round.Decides nodes labels inner)
    (follows : nodes[inner.index]? = some (.sequence [round.run, next.decision] {})) :
    Within nodes round.decision id ↔ id = round.decision ∨ id = inner ∨ id = round.run ∨
      Within nodes next.decision id ∨ id = round.stop := by
  obtain ⟨_, run⟩ := decides.run
  rw [decides.within_iff, within_iff_of_made follows]
  simp [Node.children, within_leaf_iff run, or_assoc]

/-- All of the rounds is inside the first decision. -/
theorem Chain.within (chain : Chain nodes labels rounds) {first : Round}
    (head : rounds.head? = some first) :
    ∀ round ∈ rounds, Within nodes first.decision round.decision ∧
      Within nodes first.decision round.run ∧ Within nodes first.decision round.stop := by
  induction chain generalizing first with
  | @last round decides =>
    obtain rfl := Option.some.inj head
    simp [decides.within_iff, Relation.ReflTransGen.refl]
  | @more round next rest inner decides follows _ ih =>
    obtain rfl := Option.some.inj head
    have contents {id : EpisodeId} : Within nodes round.decision id ↔ _ :=
      decides.within_iff_of_follows follows
    refine List.forall_mem_cons.mpr ⟨by simp [contents], fun other member => ?_⟩
    obtain ⟨decision, run, stop⟩ := ih rfl other member
    simp [contents, decision, run, stop]

/-- The leaves inside the first decision are runs and ways out. -/
theorem Chain.leaves (chain : Chain nodes labels rounds) {first : Round}
    (head : rounds.head? = some first) (within : Within nodes first.decision id)
    {spec : EpisodeSpec} (leaf : nodes[id.index]? = some (.leaf spec)) :
    ∃ round ∈ rounds, id = round.run ∨ id = round.stop := by
  induction chain generalizing first with
  | @last round decides =>
    obtain rfl := Option.some.inj head
    obtain ⟨_, _, made⟩ := decides.decision
    obtain ⟨_, run⟩ := decides.run
    rw [decides.within_iff, within_leaf_iff run] at within
    rcases within with rfl | which
    · cases leaf.symm.trans made
    · exact ⟨round, List.mem_singleton_self _, which⟩
  | @more round next rest inner decides follows _ ih =>
    obtain rfl := Option.some.inj head
    obtain ⟨_, _, made⟩ := decides.decision
    rcases (decides.within_iff_of_follows follows).mp within with rfl | rfl | run | within | stop
    · cases leaf.symm.trans made
    · cases leaf.symm.trans follows
    · exact ⟨round, List.mem_cons_self .., .inl run⟩
    · obtain ⟨other, among, which⟩ := ih rfl within
      exact ⟨other, List.mem_cons_of_mem _ among, which⟩
    · exact ⟨round, List.mem_cons_self .., .inr stop⟩

end Round

/-! ## The runs of the body -/

namespace Session

variable {ν : Type} {body : Session ν Component} {notes notes' : ν} {count calls : Nat}

/-- From here on, on each call the body adds a primitive episode that others can follow, with
neither an id nor events that are given, and returns it. -/
def AddsOne (body : Session ν Component) (s : Program × ν) : Prop :=
  ∀ p notes, Relation.ReflTransGen (fun s t => ∃ component, body s = .ok component t) s (p, notes) →
    ∃ spec id q notes', spec.id = none ∧ spec.Unanchored ∧ Build.addEpisode spec p = .ok id q ∧
      body (p, notes) = .ok (.episode id) (q, notes')

/-- All runs of such a body succeed, and add one episode each. -/
theorem AddsOne.runs (adds : body.AddsOne (p, notes)) (orchard : Orchard done p)
    (leaves : ∀ node ∈ done, ∃ spec, node = .leaf spec) (count : Nat) :
    ∃ nodes q notes', body.runs count (p, notes) =
        .ok ((List.range' done.length count).map fun i => .episode ⟨i⟩) (q, notes') ∧
      Orchard nodes q ∧ (∀ node ∈ nodes, ∃ spec, node = .leaf spec) ∧
      nodes.length = done.length + count ∧ q.config = p.config ∧
      ∀ {event c}, q.network.choice event = .ok c → p.network.choice event = .ok c := by
  induction count generalizing p notes done with
  | zero => exact ⟨done, p, notes, rfl, orchard, leaves, rfl, rfl, id⟩
  | succ count ih =>
    obtain ⟨spec, id, k, notes₁, unasked, unanchored, added, called⟩ := adds p notes .refl
    have none : ∀ child ∈ (Node.leaf spec).children, IsRoot done child := List.forall_mem_nil _
    obtain ⟨ready, apart⟩ := orchard.composable (orchard.tree.append none List.nodup_nil)
    have called' : (Node.leaf spec).call p = .ok id k := added
    obtain ⟨e, grown⟩ := Node.grown_of_call orchard.idle ready apart unanchored called'
    obtain ⟨rfl, orchard', _⟩ := orchard.plants none List.nodup_nil unasked grown
    obtain ⟨nodes, q, notes', ran, last⟩ := ih
      (fun p notes later => adds p notes (.head ⟨_, called⟩ later)) orchard'
      (List.forall_mem_append.mpr ⟨leaves, List.forall_mem_singleton.mpr ⟨spec, rfl⟩⟩)
    obtain ⟨orchard'', leaves, length, config, kept⟩ := last
    rw [List.length_append, List.length_singleton] at ran length
    refine ⟨nodes, q, notes', ?_, orchard'', leaves, ?_, ?_, ?_⟩
    · rw [List.range'_succ]
      exact Attempt.bind_eq_ok_iff.mpr ⟨_, _, called, Attempt.bind_eq_ok_iff.mpr ⟨_, _, ran, rfl⟩⟩
    · omega
    · exact config.trans ((Call.addEpisode spec).config_of_ok added)
    · exact fun chosen => (Call.addEpisode spec).choice_of_ok trivial added (kept chosen)

/-- The runs of a body are all that there is in a program, and nothing is chosen. -/
structure LaidOut (config : Config) (runs : List EpisodeId) (done : List Node) (p : Program) :
    Prop where
  /-- They are in an orchard. -/
  orchard : Orchard done p
  /-- No two of them are the same. -/
  once : runs.Nodup
  /-- They have not been composed. -/
  roots : ∀ run ∈ runs, IsRoot done run
  /-- They are primitive. -/
  leaves : ∀ run ∈ runs, ∃ spec, done[run.index]? = some (.leaf spec)
  /-- The settings are those of the program. -/
  config : p.config = config
  /-- There is no choice. -/
  blank : ∀ event c, p.network.choice event ≠ .ok c

/-- The runs of such a body in a fresh program. -/
theorem AddsOne.exists_laidOut {config : Config} (adds : body.AddsOne (.ofConfig config, notes))
    (count : Nat) : ∃ runs done q notes',
      body.runs count (.ofConfig config, notes) = .ok (runs.map .episode) (q, notes') ∧
        runs.length = count ∧ LaidOut config runs done q := by
  obtain ⟨done, q, notes', ran, orchard, leaves, length, same, kept⟩ :=
    adds.runs (orchard_ofConfig config) (List.forall_mem_nil _) count
  rw [List.length_nil, Nat.zero_add] at length
  let runs : List EpisodeId := (List.range' 0 count).map Handle.mk
  have older : ∀ run ∈ runs, run.index < done.length := by simp [runs, length]
  have bare : done.flatMap Node.children = [] := List.flatMap_eq_nil_iff.mpr fun node member => by
    obtain ⟨spec, rfl⟩ := leaves node member
    rfl
  refine ⟨runs, done, q, notes', ?_, by simp [runs], orchard, ?_,
    fun run member => ⟨older run member, by simp [bare]⟩, fun run member => ?_, same,
    fun event c chosen => by cases kept chosen⟩
  · rw [List.map_map]
    exact ran
  · exact (List.nodup_range' ..).map fun a b => congrArg Handle.index
  · obtain ⟨spec, made⟩ := leaves _ (List.getElem_mem (older run member))
    exact ⟨spec, made ▸ List.getElem?_eq_getElem (older run member)⟩

/-- A step that does nothing is added by each call of its body. -/
theorem addsOne_step (config : Config) : step.AddsOne (.ofConfig config, ()) := by
  intro p notes later
  have added {done : List Node} {p : Program} (orchard : Orchard done p) :
      (Build.addEpisode {}).Yields p fun id q => Program.Plants done (.leaf {}) p id q :=
    have none : ∀ child ∈ (Node.leaf {}).children, IsRoot done child := List.forall_mem_nil _
    orchard.yields_call none List.nodup_nil EpisodeSpec.plain_default rfl
  -- the runs before have planted leaves
  have planted : ∃ done, Orchard done p := by
    generalize reached : (p, notes) = s at later
    induction later generalizing p with
    | refl =>
      cases reached
      exact ⟨[], orchard_ofConfig config⟩
    | @tail s _ _ called ih =>
      obtain ⟨done, orchard⟩ := ih s.1 rfl
      obtain ⟨_, called⟩ := called
      obtain ⟨id, _, once, returned⟩ := Attempt.bind_eq_ok_iff.mp called
      obtain ⟨q, made, rfl⟩ := Attempt.focus_eq_ok_iff.mp once
      obtain ⟨_, rfl⟩ := Attempt.pure_eq_ok_iff.mp returned
      cases reached
      exact ⟨_, ((added orchard).of_eq_ok made).orchard⟩
  obtain ⟨done, orchard⟩ := planted
  obtain ⟨id, q, once, _⟩ := added orchard
  have called : step (p, ()) = .ok (.episode id) (q, ()) :=
    Attempt.bind_eq_ok_iff.mpr ⟨id, _, Attempt.focus_eq_ok_iff.mpr ⟨q, once, rfl⟩, rfl⟩
  exact ⟨{}, id, q, (), rfl, EpisodeSpec.plain_default.unanchored, once, called⟩

/-- The body, with a tally of its calls beside its notes. -/
def tallied {α : Type} (body : Session ν α) : Session (ν × Nat) α := fun (p, notes, calls) =>
  match body (p, notes) with
  | .ok a (q, notes) => .ok a (q, notes, calls + 1)
  | .error fault (q, notes) => .error fault (q, notes, calls + 1)

/-- Each of some runs is one call. -/
theorem runs_tallied {components : List Component}
    (ran : body.runs count (p, notes) = .ok components (q, notes')) :
    body.tallied.runs count (p, notes, calls) = .ok components (q, notes', calls + count) := by
  induction count generalizing p notes calls components with
  | zero =>
    obtain ⟨rfl, same⟩ := Attempt.pure_eq_ok_iff.mp ran
    cases same
    rfl
  | succ count ih =>
    obtain ⟨first, ⟨k, notes₁⟩, once, ran⟩ := Attempt.bind_eq_ok_iff.mp ran
    obtain ⟨others, _, again, returned⟩ := Attempt.bind_eq_ok_iff.mp ran
    obtain ⟨rfl, rfl⟩ := Attempt.pure_eq_ok_iff.mp returned
    have tally : body.tallied (p, notes, calls) = .ok first (k, notes₁, calls + 1) := by
      rw [tallied, once]
    refine Attempt.bind_eq_ok_iff.mpr ⟨first, _, tally, Attempt.bind_eq_ok_iff.mpr
      ⟨others, _, ih again, ?_⟩⟩
    rw [Nat.add_right_comm, Nat.add_assoc]
    rfl

end Session

/-! ## Reading the loop -/

namespace Build

/-- Make an episode the plan, and read its primitive episodes and its decisions. -/
def readPlan (id : EpisodeId) : Build (OrdSet EpisodeId × OrdSet EventId) := do
  setPlan (.episode id)
  let walk ← view
  return (walk.primitives, ← decisions)

end Build

/-- A primitive episode of a forest is a leaf. -/
theorem Forest.leaf_of_isPrimitive {e : Episode} (forest : Forest nodes p)
    (found : p.network.episode id = .ok e) (primitive : e.isPrimitive = true) :
    ∃ spec, nodes[id.index]? = some (.leaf spec) := by
  have less : id.index < nodes.length := forest.count ▸ index_lt_size found
  have made := List.getElem?_eq_getElem less
  obtain ⟨e', found', answers⟩ := forest.answers id _ made
  obtain rfl := Except.ok.inj (found.symm.trans found')
  rw [Episode.isPrimitive] at primitive
  generalize nodes[id.index] = node at made answers
  cases node with
  | leaf spec => exact ⟨spec, made⟩
  | sequence | parallel =>
    rw [show e.composition = _ from answers] at primitive
    cases primitive
  | decide | observe =>
    rw [answers.1] at primitive
    cases primitive

/-- What is read of a plan: the primitive episodes in it, and decisions, among them those that
its composites begin with. -/
structure Program.Reads (nodes : List Node) (p : Program) (root : EpisodeId)
    (read : OrdSet EpisodeId × OrdSet EventId) : Prop where
  /-- The primitive episodes are in the tree. -/
  primitives : ∀ id, id ∈ read.1.toList ↔
    Within nodes root id ∧ ∃ e, p.network.episode id = .ok e ∧ e.isPrimitive = true
  /-- The decisions are choices. -/
  choices : ∀ event ∈ read.2.toList, ∃ c, p.network.choice event = .ok c
  /-- Where a composite begins with a decision, it is read. -/
  begins : ∀ id e c, Within nodes root id → p.network.episode id = .ok e →
    p.network.choice e.start = .ok c → c.kind = .controllable → e.start ∈ read.2.toList

theorem Grove.yields_readPlan (grove : Grove nodes p) (tree : Treelike nodes)
    (isRoot : IsRoot nodes root) :
    (Build.readPlan root).Yields p fun read _ => Program.Reads nodes p root read := by
  refine (grove.yields_setPlan isRoot).bind ?_
  rintro _ _ rfl
  obtain ⟨t, q, viewed, tours, cached, _, same⟩ := grove.yields_view isRoot
  have part {event : EventId} (met : event ∈ t.events.toList) : p.network.Has (.event event) :=
    (grove.ready root isRoot).has (tours.events event met)
  have grows := same.adds.toGrows
  obtain ⟨found, read, members⟩ : ∃ found, t.events.toList.foldlM
      (Build.choiceEvents q.network fun kind => !kind.isObservation) ∅ = .ok found ∧ _ :=
    Build.exists_choiceEvents (fun event met => grows.has (part met)) ∅
  have members (event : EventId) : event ∈ found.toList ↔ event ∈ t.events.toList ∧
      ∃ c, q.network.choice event = .ok c ∧ (!c.kind.isObservation) = true :=
    (members event).trans (or_iff_right OrdSet.not_mem_empty)
  refine ⟨(t.primitives, found), q, ?_, fun id => ?_, fun event member => ?_,
    fun id e c within there chosen kind => ?_⟩
  · exact Attempt.bind_eq_ok_iff.mpr ⟨t, q, viewed, Attempt.bind_eq_ok_iff.mpr ⟨found, q,
      Build.choicesWhere_eq_ok_iff.mpr ⟨t, Build.view_of_cached cached, read⟩, rfl⟩⟩
  · rw [grove.within_iff tree]
    exact tours.primitives id
  · obtain ⟨met, c, chosen, _⟩ := (members event).mp member
    exact ⟨c, (grows.choice_iff (part met)).mp chosen⟩
  · have met := tours.starts id ((grove.within_iff tree).mp within) there
    refine (members _).mpr ⟨met, c, (grows.choice_iff (part met)).mpr chosen, ?_⟩
    rw [kind]
    rfl

/-! ## The loop -/

/-- Every round of a chain is made around something. -/
theorem Round.Chain.decides (chain : Chain nodes labels rounds) :
    ∀ round ∈ rounds, ∃ inner, round.Decides nodes labels inner := by
  induction chain with
  | last decides => exact List.forall_mem_singleton.mpr ⟨_, decides⟩
  | more decides _ _ ih => exact List.forall_mem_cons.mpr ⟨⟨_, decides⟩, ih⟩

namespace Program.Unrolls

variable (unrolls : Unrolls labels runUtility stopUtility done p nodes rounds q)

include unrolls

theorem known : ∀ round ∈ rounds, round.Known q.network labels := by
  intro round member
  obtain ⟨i, at_i⟩ := List.mem_iff_getElem?.mp member
  obtain ⟨c, chosen, _, domain⟩ := (unrolls.offers i round at_i).has_choice
  exact ⟨⟨c, chosen, domain⟩, unrolls.starts round member⟩

/-- If there was no choice then the rounds are all that there is. -/
theorem hasRounds (chain : Round.Chain nodes labels rounds)
    (blank : ∀ event c, p.network.choice event ≠ .ok c) :
    q.network.HasRounds labels runUtility stopUtility rounds where
  offers := unrolls.offers
  once := by
    refine List.pairwise_iff_getElem.mpr fun i j less less' before same => ?_
    rw [List.length_map] at less less'
    rw [List.getElem_map, List.getElem_map] at same
    have first := unrolls.offers i _ (List.getElem?_eq_getElem less)
    have second := unrolls.offers j _ (List.getElem?_eq_getElem less')
    have left := first.left_eq (same ▸ second)
    omega
  only := fun chosen => (unrolls.only chosen).resolve_left (blank _ _)
  decides := fun round member => by
    obtain ⟨inner, _, _, _, _, made⟩ := chain.decides round member
    obtain ⟨e, found, composition, _⟩ := unrolls.orchard.answers _ _ made
    obtain ⟨e', found', starts⟩ := unrolls.starts round member
    obtain rfl := Except.ok.inj (found.symm.trans found')
    exact ⟨e, inner, found, starts ▸ composition⟩
  primitive := fun round member => by
    obtain ⟨inner, ⟨_, run⟩, stop, _⟩ := chain.decides round member
    have leaf {id : EpisodeId} {spec : EpisodeSpec} (made : nodes[id.index]? = some (.leaf spec)) :
        ∃ e, q.network.episode id = .ok e ∧ e.isPrimitive = true := by
      obtain ⟨e, found, composition⟩ := unrolls.orchard.answers _ _ made
      refine ⟨e, found, ?_⟩
      rw [Episode.isPrimitive, show e.composition = _ from composition]
      rfl
    exact List.forall_mem_cons.mpr ⟨leaf run, List.forall_mem_singleton.mpr (leaf stop)⟩

end Program.Unrolls

/-- A configuration that is accepted tells running from stopping. -/
theorem Config.run_ne_stop {config : Config} {u : Unit} (accepted : config.validate = .ok u) :
    config.loop.run ≠ config.loop.stop :=
  (Config.validate_eq_ok_iff.mp accepted).2

namespace Program.Unrolls

variable {later : List Round} (differ : labels.run ≠ labels.stop)
  (unrolls : Unrolls labels runUtility stopUtility done p nodes (round :: later) q)
  (chain : Round.Chain nodes labels (round :: later)) (top : IsRoot nodes round.decision)

include differ unrolls

include chain top

/-- The leading rounds that go on run, and the next one stops. -/
theorem occurs (suits : V.Suits q.network) (v : Valuation V) :
    ((round :: later).filter fun round => q.network.Occurs v (.episode round.run)) =
        (round :: later).takeWhile (q.network.continues labels v) ∧
      ((round :: later).filter fun round => q.network.Occurs v (.episode round.stop)) =
        ((round :: later).dropWhile (q.network.continues labels v)).take 1 :=
  chain.occurs unrolls.orchard.toForest top suits v differ unrolls.known rfl .root
    (List.forall_mem_nil _)

omit differ

section Reading

variable (blank : ∀ event c, p.network.choice event ≠ .ok c)
  {read : OrdSet EpisodeId × OrdSet EventId} (reads : Program.Reads nodes q round.decision read)

include blank reads

omit top

theorem mem_primitives_iff :
    id ∈ read.1.toList ↔ ∃ other ∈ round :: later, id = other.run ∨ id = other.stop := by
  have rounds := unrolls.hasRounds chain blank
  have inside := chain.within rfl
  rw [reads.primitives]
  constructor
  · rintro ⟨within, e, there, primitive⟩
    obtain ⟨spec, leaf⟩ := unrolls.orchard.leaf_of_isPrimitive there primitive
    exact chain.leaves rfl within leaf
  · rintro ⟨other, member, rfl | rfl⟩
    · exact ⟨(inside other member).2.1, rounds.primitive other member _ (by simp)⟩
    · exact ⟨(inside other member).2.2, rounds.primitive other member _ (by simp)⟩

theorem mem_decisions_iff {event : EventId} :
    event ∈ read.2.toList ↔ event ∈ (round :: later).map (·.choice) := by
  constructor
  · intro member
    obtain ⟨c, carried⟩ := reads.choices event member
    exact (unrolls.hasRounds chain blank).only carried
  · intro member
    obtain ⟨other, among, rfl⟩ := List.mem_map.mp member
    obtain ⟨i, at_i⟩ := List.mem_iff_getElem?.mp among
    obtain ⟨c, carried, kind, _⟩ := (unrolls.offers i other at_i).has_choice
    obtain ⟨e, there, starts⟩ := unrolls.starts other among
    rw [← starts] at carried ⊢
    exact reads.begins _ e c (chain.within rfl other among).1 there carried kind

end Reading

omit chain top in
/-- The ways out are new, so none of them is a run. -/
theorem nodup_ends (once : ((round :: later).map (·.run)).Nodup)
    (runs : ∀ other ∈ round :: later, other.run.index < done.length) :
    ((round :: later).map (·.run) ++ (round :: later).map (·.stop)).Nodup := by
  refine List.nodup_append.mpr ⟨once, unrolls.stops, ?_⟩
  rintro run first stop second same
  obtain ⟨other, member, rfl⟩ := List.mem_map.mp first
  obtain ⟨other', member', rfl⟩ := List.mem_map.mp second
  have less := runs other member
  have le := (unrolls.fresh other' member').1
  rw [same] at less
  omega

/-- The runs and the ways out are the primitive episodes, and the decisions are those of the
rounds. -/
theorem yields_readPlan (blank : ∀ event c, p.network.choice event ≠ .ok c)
    (once : ((round :: later).map (·.run)).Nodup)
    (runs : ∀ other ∈ round :: later, other.run.index < done.length) :
    (Build.readPlan round.decision).Yields q fun (primitives, decisions) _ =>
      primitives.size = 2 * (round :: later).length ∧
      decisions.size = (round :: later).length ∧
      (∀ id, id ∈ primitives.toList ↔
        ∃ other ∈ round :: later, id = other.run ∨ id = other.stop) ∧
      ∀ event, event ∈ decisions.toList ↔ event ∈ (round :: later).map (·.choice) := by
  refine (unrolls.orchard.toGrove.yields_readPlan unrolls.orchard.tree top).mono ?_
  intro read _ reads
  have primitives (id : EpisodeId) : id ∈ read.1.toList ↔ _ :=
    unrolls.mem_primitives_iff chain blank reads
  have decisions (event : EventId) : event ∈ read.2.toList ↔ _ :=
    unrolls.mem_decisions_iff chain blank reads
  refine ⟨?_, ?_, primitives, decisions⟩
  · rw [OrdSet.size_eq_length (unrolls.nodup_ends once runs) fun id => ?_]
    · simp only [List.length_append, List.length_map]
      omega
    · rw [primitives, List.mem_append, List.mem_map, List.mem_map]
      simp only [and_or_left, exists_or, eq_comm (a := id)]
  · rw [OrdSet.size_eq_length (unrolls.hasRounds chain blank).once decisions, List.length_map]

end Program.Unrolls

namespace Program

variable {config : Config} {fresh : Program} {ν : Type} {body : Session ν Component} {notes : ν}
  {count : Nat}

/-- A loop executes a prefix of its runs. In a fresh program, let a loop offer some runs of a
body, at least one, each of which adds one primitive episode without an id or events that are
given, and not one that ends the execution. Then the loop succeeds, it calls the body once for
each run and makes a round of it, with a choice of its own, and no other choice. Whatever
values the choices have, the runs that occur are those of the leading rounds that go on, and
if there is another round then its way out is the only one that occurs. With the loop as its
plan, the program has the runs and the ways out as primitive episodes and the choices of the
rounds as decisions. -/
theorem loop_executes_prefix (valid : Program.new config = .ok fresh)
    (adds : body.AddsOne (fresh, notes)) (positive : 0 < count)
    (runUtility stopUtility : Number) :
    ∃ rounds top q notes',
      Session.loop body runUtility stopUtility count (fresh, notes) = .ok top (q, notes') ∧
      Session.loop body.tallied runUtility stopUtility count (fresh, notes, 0) =
        .ok top (q, notes', count) ∧
      (∃ k, body.runs count (fresh, notes) = .ok (rounds.map (.episode ·.run)) (k, notes')) ∧
      rounds.length = count ∧ q.network.HasRounds config.loop runUtility stopUtility rounds ∧
      (∃ V : Vocabulary, V.Suits q.network) ∧
      (∀ V : Vocabulary, V.Suits q.network → ∀ v : Valuation V,
        let leading := rounds.takeWhile (q.network.continues config.loop v)
        (rounds.filter fun round => q.network.Occurs v (.episode round.run)) = leading ∧
        (rounds.filter fun round => q.network.Occurs v (.episode round.stop)) =
          (rounds.dropWhile (q.network.continues config.loop v)).take 1 ∧
        (rounds.filter fun round => q.network.Occurs v (.episode round.stop)).length =
          if leading.length < count then 1 else 0) ∧
      (Build.readPlan top).Yields q fun (primitives, decisions) _ =>
        primitives.size = 2 * count ∧ decisions.size = count ∧
        (∀ id, id ∈ primitives.toList ↔ ∃ round ∈ rounds, id = round.run ∨ id = round.stop) ∧
        ∀ event, event ∈ decisions.toList ↔ event ∈ rounds.map (·.choice) := by
  obtain ⟨_, accepted, rfl⟩ := Network.map_eq_ok_iff.mp valid
  have differ := Config.run_ne_stop accepted
  obtain ⟨runs, done, t, notes', ran, length, laid⟩ := adds.exists_laidOut count
  have nonempty : runs ≠ [] := List.ne_nil_of_length_pos (length ▸ positive)
  have unrolled : (Session.offerRuns runUtility stopUtility (runs.map .episode)).Yields t _ :=
    Session.yields_offerRuns laid.orchard (laid.config ▸ differ) nonempty laid.roots laid.once
      laid.leaves
  obtain ⟨_, q, offered, nodes, rounds, rfl, loops⟩ := unrolled
  rw [laid.config] at loops
  obtain ⟨unrolls, chain, ⟨round, later, rfl, rfl⟩, root, _, _⟩ := loops
  rw [List.length_map] at length
  have rounds := unrolls.hasRounds chain laid.blank
  have whole {ν : Type} (notes : ν) : Session.build (Session.offerRuns runUtility stopUtility
      (((round :: later).map (·.run)).map .episode)) (t, notes) = .ok round.decision (q, notes) :=
    Attempt.focus_eq_ok_iff.mpr ⟨q, offered, rfl⟩
  refine ⟨round :: later, round.decision, q, notes', ?_, ?_, ⟨t, ?_⟩, length,
    rounds, rounds.exists_suits differ,
    fun V suits v => ?_, ?_⟩
  · exact (Session.loop_apply ran).trans (whole notes')
  · have tally := (Session.loop_apply (Session.runs_tallied ran)).trans (whole (notes', 0 + count))
    rwa [Nat.zero_add] at tally
  · rw [ran, List.map_map]
    rfl
  · obtain ⟨run, stop⟩ := unrolls.occurs differ chain root suits v
    have split := congrArg List.length (List.takeWhile_append_dropWhile
      (p := q.network.continues config.loop v) (l := round :: later))
    rw [List.length_append] at split
    refine ⟨run, stop, ?_⟩
    rw [stop, List.length_take]
    split <;> omega
  · have older : ∀ other ∈ round :: later, other.run.index < done.length := fun other member =>
      (laid.roots _ (List.mem_map_of_mem member)).1
    rw [← length]
    exact unrolls.yields_readPlan chain root laid.blank laid.once older

/-- Every choice is between the values that loops have by default. -/
def loopVocabulary : Vocabulary :=
  ⟨fun _ => ["RUN", "STOP"], fun _ => List.cons_ne_nil _ _, fun _ => by decide⟩

/-- Everything stops. -/
def stopping : Valuation loopVocabulary := ⟨fun _ => "STOP", fun _ => by simp [loopVocabulary]⟩

/-- Of three steps none is executed where every choice stops, and there is one way out. -/
theorem loop_executes_prefix_stopping :
    Program.new {} = .ok (.ofConfig {}) ∧ Session.step.AddsOne (ofConfig {}, ()) ∧
      ∃ rounds top q, Session.loop Session.step .one .zero 3 (ofConfig {}, ()) = .ok top (q, ()) ∧
        rounds.length = 3 ∧ q.network.HasRounds {} .one .zero rounds ∧
        loopVocabulary.Suits q.network ∧
        (rounds.filter fun round => q.network.Occurs stopping (.episode round.run)) = [] ∧
        (rounds.filter fun round => q.network.Occurs stopping (.episode round.stop)).length = 1 := by
  obtain ⟨rounds, top, q, _, looped, _, _, three, has, _, executes, _⟩ := loop_executes_prefix
    new_default (Session.addsOne_step {}) (by decide : 0 < 3) .one .zero
  have suits : loopVocabulary.Suits q.network := fun chosen => (has.domain_eq chosen).symm
  have ends (round : Round) : q.network.continues {} stopping round = false := by
    rw [Network.continues]
    split <;> simp [stopping]
  have none : rounds.takeWhile (q.network.continues {} stopping) = [] := by
    cases rounds <;> simp [ends]
  obtain ⟨runs, _, stops⟩ := executes loopVocabulary suits stopping
  rw [none] at runs stops
  exact ⟨new_default, Session.addsOne_step {}, rounds, top, q, looped, three, has, suits, runs, stops⟩

end Program

end PlanNetwork
