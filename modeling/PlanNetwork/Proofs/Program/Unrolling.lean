/-
# How a loop is unrolled

The calls that a loop makes after the runs of its body build on trees that are there. For
the last run come a way out and a decision between the two, and for each run before it the
sequence of the run and the decision that is there, another way out, and another decision
around both. So a loop is a chain of rounds, the last one innermost, and the nodes of a round
come in behind those of the rounds inside it.

None of the calls is refused as long as the two values of a decision differ. Each round brings
in one choice, which is called after the runs that are left.
-/

import PlanNetwork.Proofs.Program.Loops
import PlanNetwork.Proofs.Program.Orchard

namespace PlanNetwork

open Network

variable {p q r : Program} {done nodes : List Node} {node : Node} {id inner : EpisodeId}
  {labels : LoopLabels} {runUtility stopUtility : Number} {left : Nat}

/-! ## The rounds of a loop -/

/-- One round of a loop: a run of the body, or leaving. -/
structure Round where
  /-- What the body has made. -/
  run : EpisodeId
  /-- The way out. -/
  stop : EpisodeId
  /-- The composite that decides between going on and the way out. -/
  decision : EpisodeId
  /-- The choice by which it does. -/
  choice : EventId

namespace Round

variable {round : Round}

/-- The calls of a round: the value to run selects the inner episode, the value to stop the
way out. -/
structure Decides (nodes : List Node) (labels : LoopLabels) (round : Round) (inner : EpisodeId) :
    Prop where
  /-- The run is primitive. -/
  run : ∃ spec, nodes[round.run.index]? = some (.leaf spec)
  /-- So is the way out. -/
  stop : nodes[round.stop.index]? = some (.leaf {})
  /-- The decision is between the two values. -/
  decision : ∃ spec : ChoiceSpec, spec.domain = [labels.run, labels.stop] ∧
    nodes[round.decision.index]? = some (.decide spec [inner, round.stop] {})

theorem Decides.append (decides : round.Decides nodes labels inner) (more : List Node) :
    round.Decides (nodes ++ more) labels inner := by
  obtain ⟨⟨spec, run⟩, stop, choice, domain, decision⟩ := decides
  have kept {i : Nat} {node : Node} (made : nodes[i]? = some node) :
      (nodes ++ more)[i]? = some node :=
    (List.getElem?_append_left (List.getElem?_eq_some_iff.mp made).1).trans made
  exact ⟨⟨spec, kept run⟩, kept stop, choice, domain, kept decision⟩

/-- The rounds are unrolled, the first one outermost: going on after the run of a round is to
make the decision of the next one. -/
inductive Chain (nodes : List Node) (labels : LoopLabels) : List Round → Prop where
  /-- There is one run left. -/
  | last {round : Round} (decides : round.Decides nodes labels round.run) :
      Chain nodes labels [round]
  /-- There are more. -/
  | more {round next : Round} {rest : List Round} {inner : EpisodeId}
      (decides : round.Decides nodes labels inner)
      (follows : nodes[inner.index]? = some (.sequence [round.run, next.decision] {}))
      (later : Chain nodes labels (next :: rest)) : Chain nodes labels (round :: next :: rest)

theorem Chain.append {rounds : List Round} (chain : Chain nodes labels rounds) (more : List Node) :
    Chain (nodes ++ more) labels rounds := by
  induction chain with
  | last decides => exact .last (decides.append more)
  | more decides follows _ ih =>
    have kept : (nodes ++ more)[_]? = some _ :=
      (List.getElem?_append_left (List.getElem?_eq_some_iff.mp follows).1).trans follows
    exact .more (decides.append more) kept ih

end Round

/-! ## Unrolling -/

/-- The nodes of one round: the way out, and the decision between it and the inner episode. -/
def LoopLabels.round (labels : LoopLabels) (runUtility stopUtility : Number) (left : Nat)
    (inner stop : EpisodeId) : List Node :=
  [.leaf {}, .decide (labels.spec runUtility stopUtility left) [inner, stop] {}]

/-- The calls of one round have been made around the inner episode. -/
structure Program.Rounds (labels : LoopLabels) (runUtility stopUtility : Number) (left : Nat)
    (done : List Node) (p : Program) (inner : EpisodeId) (round : Round) (q : Program) : Prop where
  /-- The way out and the decision have come in. -/
  orchard : Orchard (done ++ labels.round runUtility stopUtility left inner round.stop) q
  /-- The way out comes first. -/
  stop : round.stop = ⟨done.length⟩
  /-- The decision is behind it. -/
  decision : round.decision = ⟨done.length + 1⟩
  /-- The settings are the same. -/
  config : q.config = p.config
  /-- What was there has grown. -/
  grows : Grows (fun _ => True) p.network q.network
  /-- The choice is called after the runs that are left. -/
  offer : q.network.IsOffer labels runUtility stopUtility left round.choice
  /-- The composite begins with it. -/
  starts : ∃ e, q.network.episode round.decision = .ok e ∧ e.start = round.choice
  /-- There is no other new choice. -/
  only : ∀ {event c}, q.network.choice event = .ok c →
    p.network.choice event = .ok c ∨ event = round.choice

namespace Program.Rounds

variable {round : Round}
  (made : Rounds labels runUtility stopUtility left done p inner round q)

include made

/-- The calls of a round make a round. -/
theorem decides (run : ∃ spec, done[round.run.index]? = some (.leaf spec)) :
    round.Decides (done ++ labels.round runUtility stopUtility left inner round.stop) labels
      inner := by
  obtain ⟨spec, run⟩ := run
  refine ⟨⟨spec, ?_⟩, ?_, labels.spec runUtility stopUtility left, rfl, ?_⟩
  · rw [List.getElem?_append_left (List.getElem?_eq_some_iff.mp run).1, run]
  · rw [made.stop]
    simp [LoopLabels.round]
  · rw [made.decision]
    simp [LoopLabels.round]

/-- Of the roots that there were the inner episode is none any more, and the decision is one. -/
theorem isRoot_iff :
    IsRoot (done ++ labels.round runUtility stopUtility left inner round.stop) id ↔
      id = round.decision ∨ IsRoot done id ∧ id ≠ inner := by
  have tree := made.orchard.tree
  have inside : IsRoot (done ++ [.leaf {}]) id ↔ _ := tree.isRoot_append_iff
  rw [LoopLabels.round, List.append_cons] at tree ⊢
  rw [tree.isRoot_append_iff, inside]
  have place : (⟨(done ++ [Node.leaf {}]).length⟩ : EpisodeId) = round.decision := by
    rw [made.decision, List.length_append, List.length_singleton]
  have stop : round.stop = ⟨done.length⟩ := made.stop
  simp only [place, Node.children, List.mem_cons, List.not_mem_nil, or_false, not_false_eq_true,
    and_true, not_or, stop]
  refine or_congr_right ⟨?_, ?_⟩
  · rintro ⟨rfl | isRoot, other, new⟩
    · exact (new rfl).elim
    · exact ⟨isRoot, other⟩
  · rintro ⟨isRoot, other⟩
    refine ⟨.inr isRoot, other, ?_⟩
    rintro rfl
    exact Nat.lt_irrefl _ isRoot.1

end Program.Rounds

/-- The offer of a run is made. -/
theorem Session.yields_offerRun (orchard : Orchard done p) (isRoot : IsRoot done inner)
    (differ : p.config.loop.run ≠ p.config.loop.stop) (run : EpisodeId) :
    (offerRun runUtility stopUtility left (.episode inner)).Yields p fun top q =>
      ∃ round : Round, round.run = run ∧ round.decision = top ∧
        Program.Rounds p.config.loop runUtility stopUtility left done p inner round q := by
  have none : ∀ child ∈ (Node.leaf {}).children, IsRoot done child := List.forall_mem_nil _
  obtain ⟨stop, k, made, rfl, orchard', grows⟩ :=
    orchard.yields_call none List.nodup_nil EpisodeSpec.plain_default rfl
  have config : k.config = p.config := (Call.addEpisode {}).config_of_ok made
  have kept : ∀ {event c}, k.network.choice event = .ok c → p.network.choice event = .ok c :=
    (Call.addEpisode {}).choice_of_ok trivial made
  have isRoot' := (orchard.isRoot_append_iff none List.nodup_nil).mpr
    (.inr ⟨isRoot, List.not_mem_nil⟩)
  have exit := (orchard.isRoot_append_iff none List.nodup_nil).mpr (.inl rfl)
  have apart : inner ≠ ⟨done.length⟩ := by
    rintro rfl
    exact Nat.lt_irrefl _ isRoot.1
  let branches : List Component := [inner, ⟨done.length⟩].map .episode
  let spec := k.config.loop.spec runUtility stopUtility left
  have offered : (Build.decide spec branches {}).Yields k _ :=
    orchard'.yields_decide (config ▸ differ) isRoot' exit apart
  obtain ⟨top, q, decided, rfl, orchard'', grows'⟩ := offered
  have there : ∀ child ∈ [inner, ⟨done.length⟩], ∃ e, k.network.episode child = .ok e :=
    List.forall_mem_cons.mpr ⟨(orchard'.ready _ isRoot').exists_episode,
      List.forall_mem_singleton.mpr (orchard'.ready _ exit).exists_episode⟩
  obtain ⟨f, e, c, begins, found, carried, named, kind, domain, utilities, only⟩ :=
    Build.choice_of_decide orchard'.idle there decided
  refine ⟨_, q, Attempt.bind_eq_ok_iff.mpr ⟨_, k, made, decided⟩,
    ⟨run, ⟨done.length⟩, ⟨(done ++ [Node.leaf {}]).length⟩, f.start⟩, rfl, rfl, ?_⟩
  rw [List.append_assoc] at orchard''
  exact {
    orchard := config ▸ orchard''
    stop := rfl
    decision := congrArg Handle.mk List.length_append
    config := ((Call.decide spec branches {}).config_of_ok decided).trans config
    grows := grows.trans grows'
    offer := ⟨e, c, found, carried, config ▸ named _ rfl, kind, config ▸ domain, utilities⟩
    starts := ⟨f, begins, rfl⟩
    only := fun chosen => (only chosen).imp_left kept }

/-- The innermost rounds of a loop have been made. -/
structure Program.Unrolls (labels : LoopLabels) (runUtility stopUtility : Number)
    (done : List Node) (p : Program) (nodes : List Node) (rounds : List Round) (q : Program) :
    Prop where
  /-- What there is now is an orchard again. -/
  orchard : Orchard nodes q
  /-- The nodes have come in behind the others. -/
  behind : done <+: nodes
  /-- The settings are the same. -/
  config : q.config = p.config
  /-- What was there has grown. -/
  grows : Grows (fun _ => True) p.network q.network
  /-- The ways out are new. -/
  fresh : ∀ round ∈ rounds, done.length ≤ round.stop.index ∧ round.stop.index < nodes.length
  /-- No two of them are the same. -/
  stops : (rounds.map (·.stop)).Nodup
  /-- The choice of a round is called after the runs that are left. -/
  offers : ∀ i round, rounds[i]? = some round →
    q.network.IsOffer labels runUtility stopUtility (rounds.length - i) round.choice
  /-- Its composite begins with it. -/
  starts : ∀ round ∈ rounds, ∃ e, q.network.episode round.decision = .ok e ∧
    e.start = round.choice
  /-- There is no other new choice. -/
  only : ∀ {event c}, q.network.choice event = .ok c →
    p.network.choice event = .ok c ∨ event ∈ rounds.map (·.choice)

namespace Program.Unrolls

variable {rounds : List Round} {round : Round}

theorem start (orchard : Orchard done p) :
    Unrolls labels runUtility stopUtility done p done [] p where
  orchard := orchard
  behind := List.prefix_rfl
  config := rfl
  grows := .refl _
  fresh := List.forall_mem_nil _
  stops := List.nodup_nil
  offers := fun _ _ made => by simp at made
  starts := List.forall_mem_nil _
  only := .inl

variable (unrolls : Unrolls labels runUtility stopUtility done p nodes rounds q)

include unrolls

/-- What has been started with stays so. -/
theorem starts_grows (grows : Grows (fun _ => True) q.network r.network) :
    ∀ round ∈ rounds, ∃ e, r.network.episode round.decision = .ok e ∧ e.start = round.choice := by
  intro round member
  obtain ⟨e, found, starts⟩ := unrolls.starts round member
  obtain ⟨g, found⟩ := grows.episode found
  exact ⟨_, found, starts⟩

/-- One more call that makes no choice. -/
theorem plant (planted : Program.Plants nodes node q id r) (config : r.config = q.config)
    (kept : ∀ {event c}, r.network.choice event = .ok c → q.network.choice event = .ok c) :
    Unrolls labels runUtility stopUtility done p (nodes ++ [node]) rounds r where
  orchard := planted.orchard
  behind := unrolls.behind.trans (List.prefix_append _ _)
  config := config.trans unrolls.config
  grows := unrolls.grows.trans planted.grows
  fresh := fun round member => by
    obtain ⟨new, less⟩ := unrolls.fresh round member
    exact ⟨new, Nat.lt_of_lt_of_le less (List.length_append ▸ Nat.le_add_right _ _)⟩
  stops := unrolls.stops
  offers := fun i round made => (unrolls.offers i round made).grows planted.grows
  starts := unrolls.starts_grows planted.grows
  only := fun chosen => unrolls.only (kept chosen)

/-- One more round around those that there are. -/
theorem around
    (made : Rounds labels runUtility stopUtility (rounds.length + 1) nodes q inner round r) :
    Unrolls labels runUtility stopUtility done p
      (nodes ++ labels.round runUtility stopUtility (rounds.length + 1) inner round.stop)
      (round :: rounds) r where
  orchard := made.orchard
  behind := unrolls.behind.trans (List.prefix_append _ _)
  config := made.config.trans unrolls.config
  grows := unrolls.grows.trans made.grows
  fresh := by
    have longer : nodes.length < (nodes ++ labels.round runUtility stopUtility (rounds.length + 1)
        inner round.stop).length := by
      rw [List.length_append]
      exact Nat.lt_add_of_pos_right (by simp [LoopLabels.round])
    have place : round.stop.index = nodes.length := congrArg Handle.index made.stop
    refine List.forall_mem_cons.mpr ⟨?_, fun other member => ?_⟩
    · exact ⟨place ▸ unrolls.behind.length_le, Nat.lt_of_le_of_lt (Nat.le_of_eq place) longer⟩
    · obtain ⟨new, less⟩ := unrolls.fresh other member
      exact ⟨new, Nat.lt_trans less longer⟩
  stops := by
    refine List.nodup_cons.mpr ⟨fun again => ?_, unrolls.stops⟩
    obtain ⟨other, member, same⟩ := List.mem_map.mp again
    have less := (unrolls.fresh other member).2
    have place : other.stop = ⟨nodes.length⟩ := same.trans made.stop
    rw [place] at less
    exact Nat.lt_irrefl _ less
  offers := fun i other at_i => by
    cases i with
    | zero =>
      obtain rfl := Option.some.inj at_i
      exact made.offer
    | succ i =>
      rw [List.length_cons, Nat.add_sub_add_right]
      exact (unrolls.offers i other at_i).grows made.grows
  starts := List.forall_mem_cons.mpr ⟨made.starts, unrolls.starts_grows made.grows⟩
  only := fun chosen => by
    rw [List.map_cons, List.mem_cons]
    rcases made.only chosen with old | new
    · exact (unrolls.only old).imp_right .inr
    · exact .inr (.inl new)

/-- A root is put in front of another one. -/
theorem yields_follow {first second : EpisodeId} (isRoot : IsRoot nodes first)
    (isRoot' : IsRoot nodes second) (apart : first ≠ second) :
    (Build.sequence [.episode first, .episode second] {}).Yields q fun inner r =>
      inner = ⟨nodes.length⟩ ∧ Unrolls labels runUtility stopUtility done p
        (nodes ++ [.sequence [first, second] {}]) rounds r ∧
      ∀ id, IsRoot (nodes ++ [.sequence [first, second] {}]) id ↔
        id = ⟨nodes.length⟩ ∨ IsRoot nodes id ∧ id ∉ [first, second] := by
  have roots : ∀ child ∈ [first, second], IsRoot nodes child := by simp [isRoot, isRoot']
  have pair : [first, second].Nodup := by simp [apart]
  have followed : (Node.sequence [first, second] {}).call.Yields q _ :=
    unrolls.orchard.yields_call roots pair
      ⟨List.cons_ne_nil _ _, CompositionOptions.plain_default⟩ rfl
  obtain ⟨inner, r, composed, planted⟩ := followed
  let compose := Call.sequence [.episode first, .episode second] {}
  have composed : compose.run q = .ok inner r := composed
  exact ⟨inner, r, composed, planted.handle, unrolls.plant planted (compose.config_of_ok composed)
    (compose.choice_of_ok trivial composed), fun _ => unrolls.orchard.isRoot_append_iff roots pair⟩

end Program.Unrolls

/-- A loop has been unrolled, and what it returns is a root that has come in. -/
structure Program.Loops (labels : LoopLabels) (runUtility stopUtility : Number)
    (done : List Node) (p : Program) (nodes : List Node) (rounds : List Round) (top : EpisodeId)
    (q : Program) : Prop where
  /-- The rounds have been made. -/
  unrolls : Program.Unrolls labels runUtility stopUtility done p nodes rounds q
  /-- They are a chain. -/
  chain : Round.Chain nodes labels rounds
  /-- The loop is the outermost decision. -/
  head : ∃ round later, rounds = round :: later ∧ round.decision = top
  /-- It has not been composed. -/
  isRoot : IsRoot nodes top
  /-- It is new. -/
  fresh : done.length ≤ top.index
  /-- What else was a root still is. -/
  kept : ∀ id, IsRoot done id → id ∉ rounds.map (·.run) → IsRoot nodes id

namespace Session

/-- One run before a loop that is there. -/
theorem yields_offerMore {run rest : EpisodeId} {rounds : List Round}
    (loops : Program.Loops labels runUtility stopUtility done p nodes rounds rest q)
    (same : q.config.loop = labels) (differ : labels.run ≠ labels.stop) (isRoot : IsRoot done run)
    (other : run ∉ rounds.map (·.run)) (leaf : ∃ spec, done[run.index]? = some (.leaf spec)) :
    Attempt.Yields (do
      let inner ← Build.sequence [.episode run, .episode rest] {}
      offerRun runUtility stopUtility (rounds.length + 1) (.episode inner)) q fun top r =>
        ∃ round nodes, round.run = run ∧
          Program.Loops labels runUtility stopUtility done p nodes (round :: rounds) top r := by
  obtain ⟨unrolls, chain, ⟨after, later, rfl, rfl⟩, top, new, kept⟩ := loops
  have older {id : EpisodeId} (isRoot : IsRoot done id) : id ≠ after.decision := by
    rintro rfl
    exact Nat.not_lt_of_le new isRoot.1
  -- the run is followed by the loop that is there
  obtain ⟨_, t, composed, rfl, joined, rooted⟩ :=
    unrolls.yields_follow (kept run isRoot other) top (older isRoot)
  have config : t.config.loop = labels := by rw [joined.config, ← unrolls.config, same]
  -- and the offer is made around both
  have offers : (offerRun runUtility stopUtility ((after :: later).length + 1)
      (.episode ⟨nodes.length⟩)).Yields t _ :=
    yields_offerRun joined.orchard ((rooted _).mpr (.inl rfl)) (config ▸ differ) run
  obtain ⟨_, r, decided, round, rfl, rfl, made⟩ := offers
  rw [config] at made
  refine ⟨_, r, Attempt.bind_eq_ok_iff.mpr ⟨_, t, composed, decided⟩, round, _, rfl, {
    unrolls := joined.around made
    chain := .more (made.decides ?_) ?_ ((chain.append _).append _)
    head := ⟨_, _, rfl, rfl⟩
    isRoot := made.isRoot_iff.mpr (.inl rfl)
    fresh := ?_
    kept := fun id isRoot other => ?_ }⟩
  · obtain ⟨spec, leaf⟩ := leaf
    obtain ⟨behind, same⟩ := joined.behind
    refine ⟨spec, ?_⟩
    rw [← same, List.getElem?_append_left (List.getElem?_eq_some_iff.mp leaf).1, leaf]
  · simp
  · rw [made.decision]
    exact Nat.le_succ_of_le joined.behind.length_le
  · obtain ⟨notRun, notRest⟩ := not_or.mp (List.mem_cons.not.mp other)
    refine made.isRoot_iff.mpr (.inr ⟨(rooted id).mpr (.inr ⟨kept id isRoot notRest, ?_⟩), ?_⟩)
    · simp [notRun, older isRoot]
    · rintro rfl
      exact Nat.not_lt_of_le unrolls.behind.length_le isRoot.1

/-- A loop over runs that are roots unrolls. -/
theorem yields_offerRuns (orchard : Orchard done p)
    (differ : p.config.loop.run ≠ p.config.loop.stop) {runs : List EpisodeId}
    (nonempty : runs ≠ []) (roots : ∀ run ∈ runs, IsRoot done run) (once : runs.Nodup)
    (leaves : ∀ run ∈ runs, ∃ spec, done[run.index]? = some (.leaf spec)) :
    (offerRuns runUtility stopUtility (runs.map .episode)).Yields p fun top q =>
      ∃ nodes rounds, rounds.map (·.run) = runs ∧
        Program.Loops p.config.loop runUtility stopUtility done p nodes rounds top q := by
  induction runs with
  | nil => exact absurd rfl nonempty
  | cons run rest ih =>
    obtain ⟨isRoot, others⟩ := List.forall_mem_cons.mp roots
    obtain ⟨leaf, leaves⟩ := List.forall_mem_cons.mp leaves
    obtain ⟨other, once⟩ := List.nodup_cons.mp once
    cases rest with
    | nil =>
      refine (yields_offerRun orchard isRoot differ run).mono ?_
      rintro _ q ⟨round, rfl, rfl, made⟩
      refine ⟨_, [round], rfl, {
        unrolls := (Program.Unrolls.start orchard).around made
        chain := .last (made.decides leaf)
        head := ⟨_, _, rfl, rfl⟩
        isRoot := made.isRoot_iff.mpr (.inl rfl)
        fresh := ?_
        kept := fun id isRoot other => made.isRoot_iff.mpr (.inr ⟨isRoot, by simpa using other⟩) }⟩
      rw [made.decision]
      exact Nat.le_succ _
    | cons next more =>
      obtain ⟨top, k, offered, nodes, rounds, runs, loops⟩ :=
        ih (List.cons_ne_nil _ _) others once leaves
      have config : k.config.loop = p.config.loop := by rw [loops.unrolls.config]
      have longer := yields_offerMore loops config differ isRoot (runs ▸ other) leaf
      have count : rounds.length = (more.map Component.episode).length + 1 := by
        rw [List.length_map, ← List.length_cons, ← runs, List.length_map]
      obtain ⟨_, q, decided, round, nodes, rfl, loops⟩ := longer
      rw [count] at decided
      exact ⟨_, q, Attempt.bind_eq_ok_iff.mpr ⟨_, k, offered, decided⟩, nodes, round :: rounds,
        congrArg _ runs, loops⟩

end Session

end PlanNetwork
