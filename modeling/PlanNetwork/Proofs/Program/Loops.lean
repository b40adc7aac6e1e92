/-
# What a refused loop leaves behind

A loop runs its body as often as it is told and then makes its own calls, from the innermost
decision outwards: for each run an episode for the way out and a decision, and around all but
the innermost a sequence. Each of these takes effect as a whole or not at all, but all of them
together do not. If one is refused then it leaves nothing behind, and what the ones before it
have made stays, without ever becoming part of a loop.
-/

import PlanNetwork.Proofs.Program.Registry

namespace PlanNetwork

open Network

variable {n m k : Network} {p q r : Program} {ids more : List EpisodeId} {id : EpisodeId}
  {fault : Fault} {ν α β : Type}

/-! ## Adding episodes -/

namespace Network

/-- Primitive episodes have come in, all of them on the list, and no other episodes and no
choices. What was there is exactly what it was. -/
structure Gains (ids : List EpisodeId) (n m : Network) : Prop extends Preserves n m where
  /-- An episode that is new is on the list, and primitive. -/
  fresh : ∀ {id e}, m.episode id = .ok e →
    n.episode id = .ok e ∨ id ∈ ids ∧ e.composition = .primitive
  /-- No choice is new. -/
  choice : ∀ {id c}, m.choice id = .ok c → n.choice id = .ok c

namespace Gains

/-- Without episodes and choices that are new nothing has been gained. -/
theorem nothing (preserves : Preserves n m) (episodes : m.episodes = n.episodes)
    (events : m.events = n.events) : Gains [] n m := by
  refine ⟨preserves, fun found => .inl ?_, fun found => ?_⟩
  · rwa [episode, ← episodes]
  · rwa [Network.choice, event, ← events]

theorem trans (first : Gains ids n m) (second : Gains more m k) : Gains (ids ++ more) n k := by
  refine ⟨first.toPreserves.trans second.toPreserves, fun found => ?_, first.choice ∘ second.choice⟩
  rcases second.fresh found with there | ⟨new, primitive⟩
  · exact (first.fresh there).imp_right (.imp_left (List.mem_append_left _))
  · exact .inr ⟨List.mem_append_right _ new, primitive⟩

end Gains

end Network

namespace Edit

theorem leaves_episodes_eventOrNew (given : Option EventId) :
    (eventOrNew given).Leaves Network.episodes := by
  cases given with
  | some id => exact Attempt.leaves_pure id
  | none =>
    intro n id m done
    obtain ⟨_, _, counted, pushed⟩ := Attempt.bind_eq_ok_iff.mp done
    obtain ⟨_, rfl⟩ := allocate_eq_ok_iff.mp counted
    obtain ⟨_, rfl⟩ := pushEvent_eq_ok_iff.mp pushed
    rfl

theorem episodes_addDraft {draft : EpisodeDraft} {finishing : Episode → Episode}
    (done : addDraft draft finishing n = .ok id m) : id = ⟨n.episodes.size⟩ ∧
      ∃ d, m.episodes = n.episodes.push (finishing (draft.toEpisode d)) := by
  obtain ⟨_, _, done⟩ := Attempt.read_bind_eq_ok_iff.mp done
  obtain ⟨_, _, done⟩ := Attempt.read_bind_eq_ok_iff.mp done
  obtain ⟨d, k, timed, pushed⟩ := Attempt.bind_eq_ok_iff.mp done
  obtain ⟨_, _, _, _, _, _, _, _, _, _, rfl⟩ := addDuration_eq_ok_iff.mp timed
  obtain ⟨rfl, rfl⟩ := pushEpisode_eq_ok_iff.mp pushed
  exact ⟨rfl, d, rfl⟩

/-- A primitive episode comes in behind the others. -/
theorem episodes_addEpisode {spec : EpisodeSpec} (done : addEpisode spec n = .ok id m) :
    id = ⟨n.episodes.size⟩ ∧ ∃ e, m.episodes = n.episodes.push e ∧ e.composition = .primitive := by
  iterate 5 obtain ⟨_, _, done⟩ := Attempt.read_bind_eq_ok_iff.mp done
  rcases of_atomically_eq_ok done with steps | ⟨_, steps, rfl⟩
  all_goals
    obtain ⟨start, k₁, opened, steps⟩ := Attempt.bind_eq_ok_iff.mp steps
    obtain ⟨finish, k₂, closed, steps⟩ := Attempt.bind_eq_ok_iff.mp steps
    obtain ⟨_, k₃, identified, drafted⟩ := Attempt.bind_eq_ok_iff.mp steps
    obtain ⟨_, rfl⟩ := allocateAs_eq_ok_iff.mp identified
    have first := leaves_episodes_eventOrNew _ _ _ _ opened
    have second := leaves_episodes_eventOrNew _ _ _ _ closed
    obtain ⟨rfl, d, pushed⟩ := episodes_addDraft drafted
    have before : k₂.episodes = n.episodes := second.trans first
    rw [← before]
    exact ⟨rfl, _, pushed, rfl⟩

theorem gains_addEpisode {spec : EpisodeSpec} (done : addEpisode spec n = .ok id m) :
    Gains [id] n m := by
  have course : Course ⟨fun _ => False, fun _ => False, fun _ _ => False⟩ n m :=
    (courses_addEpisode spec).of_ok done
  obtain ⟨last, e, pushed, primitive⟩ := episodes_addEpisode done
  refine ⟨(preserves_addEpisode spec).of_ok done, fun {other f} found => ?_,
    course.choice fun _ => not_false⟩
  rw [Network.episode, pushed, lookup_eq_ok_iff, Array.getElem?_push] at found
  split at found
  next here =>
    obtain rfl := Option.some.inj found
    exact .inr ⟨List.mem_singleton.mpr (congrArg Handle.mk here |>.trans last.symm), primitive⟩
  next => exact .inl (lookup_eq_ok_iff.mpr found)

end Edit

namespace Program

/-- Primitive episodes have come in, all of them on the list, and ids that have come to name
an episode name one of them. -/
structure Gains (ids : List EpisodeId) (p q : Program) : Prop where
  /-- Nothing else has come in. -/
  network : p.network.Gains ids q.network
  /-- An id names what it did, or an episode of the list. -/
  registry : ∀ {name id}, q.registry.get? name = some id →
    p.registry.get? name = some id ∨ id ∈ ids

namespace Gains

theorem trans (first : Gains ids p q) (second : Gains more q r) : Gains (ids ++ more) p r := by
  refine ⟨first.network.trans second.network, fun held => ?_⟩
  rcases second.registry held with known | new
  · exact (first.registry known).imp_right (List.mem_append_left _)
  · exact .inr (List.mem_append_right _ new)

theorem of_spends (spends : p.Spends q) : Gains [] p q := by
  obtain ⟨later, _, rfl⟩ := spends
  exact ⟨.nothing (.withSerial _ later) rfl rfl, .inl⟩

end Gains

/-- What a program comes to when primitive episodes are added to it, or to its network, and
none of them is refused. -/
inductive AddsEpisodes (p : Program) : List EpisodeId → Program → Prop where
  /-- Nothing has been added yet. -/
  | start : AddsEpisodes p [] p
  /-- An episode is added, and found by its id from now on. -/
  | own {ids : List EpisodeId} {q r : Program} {spec : EpisodeSpec} {id : EpisodeId}
      (before : AddsEpisodes p ids q) (done : Build.addEpisode spec q = .ok id r) :
      AddsEpisodes p (ids ++ [id]) r
  /-- An episode is added to the network. -/
  | inner {ids : List EpisodeId} {q r : Program} {spec : EpisodeSpec} {id : EpisodeId}
      (before : AddsEpisodes p ids q) (done : Build.edit (Edit.addEpisode spec) q = .ok id r) :
      AddsEpisodes p (ids ++ [id]) r

end Program

namespace Build

/-- An episode that is added is made as a whole, and then it is registered. -/
theorem addEpisode_eq_ok {spec : EpisodeSpec} (idle : p.network.journal = none)
    (done : addEpisode spec p = .ok id q) :
    ∃ m, Edit.addEpisode spec p.network.checkpoint = .ok id m ∧ q.network = m.commit ∧
      ∀ {name other}, q.registry.get? name = some other →
        p.registry.get? name = some other ∨ other = id := by
  obtain ⟨r, steps, rfl⟩ := atomically_eq_ok idle done
  obtain ⟨_, _, started, steps⟩ := Attempt.bind_eq_ok_iff.mp steps
  obtain ⟨_, _, entered, returned⟩ := Attempt.bind_eq_ok_iff.mp steps
  obtain ⟨rfl, rfl⟩ := Attempt.pure_eq_ok_iff.mp returned
  obtain ⟨m, made, rfl⟩ := Attempt.focus_eq_ok_iff.mp started
  refine ⟨m, made, ?_⟩
  obtain ⟨e, found, ⟨_, rfl⟩ | ⟨_, rfl⟩⟩ := register_eq_ok entered
  · exact ⟨rfl, fun held => (OrdMap.of_get?_insert_eq_some held).imp_right And.right⟩
  · exact ⟨rfl, .inl⟩

theorem gains_addEpisode {spec : EpisodeSpec} (idle : p.network.journal = none)
    (done : addEpisode spec p = .ok id q) : p.Gains [id] q := by
  obtain ⟨m, made, network, registry⟩ := addEpisode_eq_ok idle done
  have inside : p.network.Gains [id] m :=
    (Gains.nothing (.checkpoint p.network) rfl rfl).trans (Edit.gains_addEpisode made)
  refine ⟨network ▸ inside.trans (.nothing (.commit m) rfl rfl), fun held => ?_⟩
  exact (registry held).imp_right List.mem_singleton.mpr

/-- An episode that is added comes in behind the others. -/
theorem episode_addEpisode {spec : EpisodeSpec} (idle : p.network.journal = none)
    (done : addEpisode spec p = .ok id q) :
    id = ⟨p.network.episodes.size⟩ ∧ ∃ e, q.network.episode id = .ok e := by
  obtain ⟨m, made, network, _⟩ := addEpisode_eq_ok idle done
  obtain ⟨rfl, e, pushed, _⟩ := Edit.episodes_addEpisode made
  refine ⟨rfl, e, ?_⟩
  rw [network]
  show lookup m.episodes _ = _
  rw [pushed]
  exact lookup_push_self rfl

theorem gains_edit_addEpisode {spec : EpisodeSpec}
    (done : edit (Edit.addEpisode spec) p = .ok id q) : p.Gains [id] q := by
  obtain ⟨_, _, forgotten, done⟩ := Attempt.bind_eq_ok_iff.mp done
  obtain rfl := Attempt.modify_eq_ok_iff.mp forgotten
  obtain ⟨m, made, rfl⟩ := Attempt.focus_eq_ok_iff.mp done
  exact ⟨Edit.gains_addEpisode made, .inl⟩

theorem episode_edit_addEpisode {spec : EpisodeSpec}
    (done : edit (Edit.addEpisode spec) p = .ok id q) : ∃ e, q.network.episode id = .ok e := by
  obtain ⟨_, _, forgotten, done⟩ := Attempt.bind_eq_ok_iff.mp done
  obtain rfl := Attempt.modify_eq_ok_iff.mp forgotten
  obtain ⟨m, made, rfl⟩ := Attempt.focus_eq_ok_iff.mp done
  obtain ⟨rfl, e, pushed, _⟩ := Edit.episodes_addEpisode made
  refine ⟨e, ?_⟩
  show lookup m.episodes _ = _
  rw [pushed]
  exact lookup_push_self rfl

end Build

/-! ## Runs of a body -/

theorem Call.stays_of_ok {a : α} (call : Call α) (done : call.run p = .ok a q) :
    Stays p.network q.network :=
  Attempt.after_of_ok done ▸ call.stays_run p

theorem Program.Spends.stays (spends : p.Spends q) : Stays p.network q.network := by
  obtain ⟨later, more, rfl⟩ := spends
  exact (Move.count more : Move .full p.network _).stays

namespace Program.AddsEpisodes

variable {waiting : List Program}

theorem trans (first : p.AddsEpisodes ids q) (second : q.AddsEpisodes more r) :
    p.AddsEpisodes (ids ++ more) r := by
  induction second with
  | start => rwa [List.append_nil]
  | own _ done ih => exact List.append_assoc .. ▸ ih.own done
  | inner _ done ih => exact List.append_assoc .. ▸ ih.inner done

theorem reached (h : p.AddsEpisodes ids q) (reached : Reached .free p waiting) :
    Reached .free q waiting := by
  induction h with
  | start => exact reached
  | @own _ _ _ spec _ _ done ih => exact ih.of_ok (.addEpisode spec) done
  | @inner _ _ _ spec _ _ done ih => exact ih.of_ok (.edit (.addEpisode spec)) done

theorem gains (h : p.AddsEpisodes ids q) (reached : Reached .free p waiting) : p.Gains ids q := by
  induction h with
  | start => exact .of_spends (Build.spends_refl p)
  | own before done ih =>
    exact ih.trans (Build.gains_addEpisode (Reachable.idle ⟨_, before.reached reached⟩) done)
  | inner _ done ih => exact ih.trans (Build.gains_edit_addEpisode done)

/-- What has been added is there. -/
theorem there (h : p.AddsEpisodes ids q) (reached : Reached .free p waiting) :
    ∀ id ∈ ids, ∃ e, q.network.episode id = .ok e := by
  induction h with
  | start => exact nofun
  | own before done ih =>
    have idle := Reachable.idle ⟨_, before.reached reached⟩
    refine List.forall_mem_append.mpr ⟨fun id member => ?_, ?_⟩
    · exact (ih id member).imp fun _ => (Build.gains_addEpisode idle done).network.episode
    · exact List.forall_mem_singleton.mpr (Build.episode_addEpisode idle done).2
  | inner _ done ih =>
    refine List.forall_mem_append.mpr ⟨fun id member => ?_, ?_⟩
    · exact (ih id member).imp fun _ => (Build.gains_edit_addEpisode done).network.episode
    · exact List.forall_mem_singleton.mpr (Build.episode_edit_addEpisode done)

end Program.AddsEpisodes

namespace Session

/-- Whatever the body returns, all that it has done to the program is to add primitive
episodes. -/
def OnlyAdds (body : Session ν Component) : Prop :=
  ∀ {p notes component q notes'}, body (p, notes) = .ok component (q, notes') →
    ∃ ids, p.AddsEpisodes ids q

/-- Some runs of a body. -/
def runs (body : Session ν Component) : Nat → Session ν (List Component)
  | 0 => return []
  | count + 1 => do
    let first ← body
    let others ← runs body count
    return first :: others

theorem OnlyAdds.runs {body : Session ν Component} (adds : body.OnlyAdds) {count : Nat}
    {notes notes' : ν} {components : List Component}
    (ran : body.runs count (p, notes) = .ok components (q, notes')) :
    ∃ ids, p.AddsEpisodes ids q := by
  induction count generalizing p notes components with
  | zero =>
    obtain ⟨_, same⟩ := Attempt.pure_eq_ok_iff.mp ran
    obtain ⟨rfl, _⟩ := Prod.mk.inj same
    exact ⟨[], .start⟩
  | succ count ih =>
    obtain ⟨first, ⟨r, _⟩, once, ran⟩ := Attempt.bind_eq_ok_iff.mp ran
    obtain ⟨others, _, again, returned⟩ := Attempt.bind_eq_ok_iff.mp ran
    obtain ⟨_, rfl⟩ := Attempt.pure_eq_ok_iff.mp returned
    obtain ⟨ids, added⟩ := adds once
    obtain ⟨more, later⟩ := ih again
    exact ⟨ids ++ more, added.trans later⟩

theorem length_of_runs {body : Session ν Component} {count : Nat} {components : List Component}
    {s t : Program × ν} (ran : body.runs count s = .ok components t) :
    components.length = count := by
  induction count generalizing s components with
  | zero =>
    obtain ⟨rfl, _⟩ := Attempt.pure_eq_ok_iff.mp ran
    rfl
  | succ count ih =>
    obtain ⟨_, _, _, ran⟩ := Attempt.bind_eq_ok_iff.mp ran
    obtain ⟨_, _, again, returned⟩ := Attempt.bind_eq_ok_iff.mp ran
    obtain ⟨rfl, rfl⟩ := Attempt.pure_eq_ok_iff.mp returned
    exact congrArg (· + 1) (ih again)

/-! ## The calls of a loop -/

variable {runUtility stopUtility : Number} {waiting : List Program}

/-- The calls that a loop makes after the runs of its body, from the last run outwards. -/
def offerRuns (runUtility stopUtility : Number) : List Component → Build EpisodeId
  | [] => throw .loopEmpty
  | [run] => offerRun runUtility stopUtility 1 run
  | once :: next :: more => do
    let rest ← offerRuns runUtility stopUtility (next :: more)
    let run ← Build.sequence [once, .episode rest] {}
    offerRun runUtility stopUtility (more.length + 2) (.episode run)

theorem build_bind (op : Build α) (next : α → Build β) :
    (build (op >>= next) : Session ν β) = build op >>= fun a => build (next a) := by
  funext s
  show Attempt.focus _ _ (EStateM.bind op next) s = EStateM.bind _ _ s
  simp only [build, Attempt.focus, EStateM.bind]
  cases op s.1 <;> rfl

/-- A loop runs its body first, and all calls of its own come after that. -/
theorem loop_apply {body : Session ν Component} {count : Nat} {components : List Component}
    {s t : Program × ν} (ran : body.runs count s = .ok components t) :
    loop body runUtility stopUtility count s =
      build (offerRuns runUtility stopUtility components) t := by
  induction count generalizing s components with
  | zero =>
    obtain ⟨rfl, rfl⟩ := Attempt.pure_eq_ok_iff.mp ran
    rfl
  | succ count ih =>
    obtain ⟨first, u, once, ran⟩ := Attempt.bind_eq_ok_iff.mp ran
    obtain ⟨others, _, again, returned⟩ := Attempt.bind_eq_ok_iff.mp ran
    obtain ⟨rfl, rfl⟩ := Attempt.pure_eq_ok_iff.mp returned
    have length := length_of_runs again
    cases count with
    | zero =>
      obtain ⟨rfl, rfl⟩ := Attempt.pure_eq_ok_iff.mp again
      exact Attempt.bind_of_ok once
    | succ left =>
      obtain ⟨next, more, rfl⟩ := List.exists_cons_of_length_eq_add_one length
      obtain rfl : more.length = left := Nat.succ.inj length
      refine (Attempt.bind_of_ok once).trans ?_
      rw [offerRuns, build_bind]
      show EStateM.bind _ _ u = EStateM.bind _ _ t
      unfold EStateM.bind
      rw [ih again]

/-- The programs that a loop comes through by its own calls, after the runs of its body have
returned the components: each is what the first few of the calls have made. -/
inductive Underway (runUtility stopUtility : Number) (k : Program) :
    List Component → Program → Prop where
  /-- The innermost way out has been made. -/
  | exit {run : Component} {stop : EpisodeId} {s : Program}
      (made : Build.addEpisode {} k = .ok stop s) : Underway runUtility stopUtility k [run] s
  /-- A loop over the later runs has been begun. -/
  | begun {once : Component} {more : List Component} {s : Program}
      (before : Underway runUtility stopUtility k more s) :
      Underway runUtility stopUtility k (once :: more) s
  /-- A loop over the later runs has been finished. -/
  | finished {once : Component} {more : List Component} {rest : EpisodeId} {s : Program}
      (done : offerRuns runUtility stopUtility more k = .ok rest s) :
      Underway runUtility stopUtility k (once :: more) s
  /-- It has been put behind the run. -/
  | joined {once : Component} {more : List Component} {rest run : EpisodeId} {r s : Program}
      (done : offerRuns runUtility stopUtility more k = .ok rest r)
      (composed : Build.sequence [once, .episode rest] {} r = .ok run s) :
      Underway runUtility stopUtility k (once :: more) s
  /-- Another way out has been made. -/
  | exitAgain {once : Component} {more : List Component} {rest run stop : EpisodeId}
      {r s t : Program} (done : offerRuns runUtility stopUtility more k = .ok rest r)
      (composed : Build.sequence [once, .episode rest] {} r = .ok run s)
      (made : Build.addEpisode {} s = .ok stop t) :
      Underway runUtility stopUtility k (once :: more) t

/-- An offer is refused with the way out or with the decision. -/
theorem offerRun_eq_error {left : Nat} {run : Component} (reached : Reached .free p waiting)
    (refused : offerRun runUtility stopUtility left run p = .error fault q) :
    p.Spends q ∨ ∃ stop s, Build.addEpisode {} p = .ok stop s ∧ s.Spends q := by
  rcases Attempt.bind_eq_error_iff.mp refused with stopped | ⟨stop, s, made, rest⟩
  · exact .inl (Build.spends_of_addEpisode (Program.Reachable.idle ⟨_, reached⟩) stopped)
  · have between := reached.of_ok (.addEpisode {}) made
    rcases Attempt.bind_eq_error_iff.mp rest with ⟨⟨⟩⟩ | ⟨_, _, ⟨⟩, decided⟩
    exact .inr ⟨stop, s, made,
      Build.spends_of_decide (Program.Reachable.idle ⟨_, between⟩) decided⟩

theorem reached_of_offerRun {left : Nat} {run : Component} (reached : Reached .free p waiting)
    (done : offerRun runUtility stopUtility left run p = .ok id q) : Reached .free q waiting := by
  have loops : Loops .free := ⟨fun _ => trivial, fun _ _ => trivial, fun _ _ _ => trivial⟩
  exact Attempt.after_of_ok done ▸
    holds_offerRun loops.upholds runUtility stopUtility left run reached

theorem reached_of_offerRuns {components : List Component} (reached : Reached .free p waiting)
    (done : offerRuns runUtility stopUtility components p = .ok id q) : Reached .free q waiting := by
  induction components generalizing id q with
  | nil => cases done
  | cons once more ih =>
    cases more with
    | nil => exact reached_of_offerRun reached done
    | cons next more =>
      obtain ⟨rest, r, inner, done⟩ := Attempt.bind_eq_ok_iff.mp done
      obtain ⟨run, s, composed, offered⟩ := Attempt.bind_eq_ok_iff.mp done
      exact reached_of_offerRun ((ih inner).of_ok (.sequence [once, .episode rest] {}) composed) offered

/-- Whichever of its calls is refused, a loop leaves behind what the ones before it have made,
and nothing of that one but serial numbers. -/
theorem underway_of_offerRuns_eq_error {components : List Component}
    (reached : Reached .free p waiting)
    (refused : offerRuns runUtility stopUtility components p = .error fault q) :
    p.Spends q ∨ ∃ s, Underway runUtility stopUtility p components s ∧ s.Spends q := by
  induction components generalizing fault q with
  | nil => exact .inl (Build.spends_of_throw refused)
  | cons once more ih =>
    cases more with
    | nil =>
      refine (offerRun_eq_error reached refused).imp_right ?_
      rintro ⟨stop, s, made, spends⟩
      exact ⟨s, .exit made, spends⟩
    | cons next more =>
      rcases Attempt.bind_eq_error_iff.mp refused with stopped | ⟨rest, r, done, refused⟩
      · exact (ih stopped).imp_right fun ⟨s, before, spends⟩ => ⟨s, .begun before, spends⟩
      have inside := reached_of_offerRuns reached done
      rcases Attempt.bind_eq_error_iff.mp refused with stopped | ⟨run, s, composed, refused⟩
      · exact .inr ⟨r, .finished done,
          Build.spends_of_sequence (Program.Reachable.idle ⟨_, inside⟩) stopped⟩
      have behind := inside.of_ok (.sequence [once, .episode rest] {}) composed
      rcases offerRun_eq_error behind refused with spends | ⟨stop, t, made, spends⟩
      · exact .inr ⟨s, .joined done composed, spends⟩
      · exact .inr ⟨t, .exitAgain done composed made, spends⟩

/-! ## The first way out -/

theorem stays_of_sequence {components : List Component}
    (done : Build.sequence components {} p = .ok id q) : Stays p.network q.network :=
  (Call.sequence components {}).stays_of_ok done

theorem stays_of_decide {spec : ChoiceSpec} {components : List Component}
    (done : Build.decide spec components {} p = .ok id q) : Stays p.network q.network :=
  (Call.decide spec components {}).stays_of_ok done

/-- The way out of an offer stays. -/
theorem exists_exit_of_offerRun {left : Nat} {run : Component}
    (done : offerRun runUtility stopUtility left run p = .ok id q) :
    ∃ stop s, Build.addEpisode {} p = .ok stop s ∧ Stays s.network q.network := by
  obtain ⟨stop, s, made, done⟩ := Attempt.bind_eq_ok_iff.mp done
  obtain ⟨_, _, ⟨⟩, decided⟩ := Attempt.bind_eq_ok_iff.mp done
  exact ⟨stop, s, made, stays_of_decide decided⟩

theorem stays_of_offerRun {left : Nat} {run : Component}
    (done : offerRun runUtility stopUtility left run p = .ok id q) :
    Stays p.network q.network := by
  obtain ⟨stop, s, made, stays⟩ := exists_exit_of_offerRun done
  exact ((Call.addEpisode {}).stays_of_ok made).trans stays

/-- Whatever a loop does, it makes the way out of the last run first. -/
theorem exists_exit_of_offerRuns {components : List Component}
    (done : offerRuns runUtility stopUtility components p = .ok id q) :
    ∃ stop s, Build.addEpisode {} p = .ok stop s ∧ Stays s.network q.network := by
  induction components generalizing id q with
  | nil => cases done
  | cons once more ih =>
    cases more with
    | nil => exact exists_exit_of_offerRun done
    | cons next more =>
      obtain ⟨rest, r, inner, done⟩ := Attempt.bind_eq_ok_iff.mp done
      obtain ⟨run, s, composed, offered⟩ := Attempt.bind_eq_ok_iff.mp done
      obtain ⟨stop, t, made, stays⟩ := ih inner
      exact ⟨stop, t, made,
        (stays.trans (stays_of_sequence composed)).trans (stays_of_offerRun offered)⟩

theorem Underway.exists_exit {components : List Component}
    (underway : Underway runUtility stopUtility p components q) :
    ∃ stop s, Build.addEpisode {} p = .ok stop s ∧ Stays s.network q.network := by
  induction underway with
  | exit made => exact ⟨_, _, made, .refl _⟩
  | begun _ ih => exact ih
  | finished done => exact exists_exit_of_offerRuns done
  | joined done composed =>
    obtain ⟨stop, s, made, stays⟩ := exists_exit_of_offerRuns done
    exact ⟨stop, s, made, stays.trans (stays_of_sequence composed)⟩
  | exitAgain done composed again =>
    obtain ⟨stop, s, made, stays⟩ := exists_exit_of_offerRuns done
    exact ⟨stop, s, made, (stays.trans (stays_of_sequence composed)).trans
      ((Call.addEpisode {}).stays_of_ok again)⟩

/-- Once the first way out has been made, it is more than what the body has added. -/
theorem Underway.not_gains {components : List Component} {s : Program}
    (underway : Underway runUtility stopUtility q components s) (spends : s.Spends r)
    (idle : q.network.journal = none) (gains : p.Gains ids q)
    (there : ∀ id ∈ ids, ∃ e, q.network.episode id = .ok e) : ¬ p.Gains ids r := by
  intro nothing
  obtain ⟨stop, t, made, stays⟩ := underway.exists_exit
  obtain ⟨rfl, e, found⟩ := Build.episode_addEpisode idle made
  obtain ⟨e', found', _⟩ := (stays.trans spends.stays).episode found
  have old : ∃ f, q.network.episode ⟨q.network.episodes.size⟩ = .ok f := by
    rcases nothing.network.fresh found' with before | ⟨listed, _⟩
    · exact ⟨e', gains.network.episode before⟩
    · exact there _ listed
  obtain ⟨f, old⟩ := old
  exact lookup_ne_ok rfl old

end Session

/-- A refused loop leaves behind what it has finished. Whatever a program has come about by,
if the runs of the body only add primitive episodes and all succeed, and the loop is refused
nevertheless, then the runs have left nothing but these episodes. Either the loop has not left
anything either, or the way out of the last run had been made: then it leaves exactly what
the calls before the refused one have made, and the refused one only serial numbers. -/
theorem Program.refused_loop_leaves_what_it_finished {waiting : List Program}
    (reached : Reached .free p waiting) {body : Session ν Component} (adds : body.OnlyAdds)
    {count : Nat} {notes notes' notes'' : ν} {components : List Component} {k : Program}
    (ran : body.runs count (p, notes) = .ok components (k, notes'))
    {runUtility stopUtility : Number}
    (refused : Session.loop body runUtility stopUtility count (p, notes) =
      .error fault (q, notes'')) :
    ∃ ids, p.AddsEpisodes ids k ∧ p.Gains ids k ∧ (p.Gains ids q ∨ ¬ p.Gains ids q ∧
      ∃ s, Session.Underway runUtility stopUtility k components s ∧ s.Spends q) := by
  obtain ⟨ids, added⟩ := adds.runs ran
  have gains := added.gains reached
  have between := added.reached reached
  refine ⟨ids, added, gains, ?_⟩
  rw [Session.loop_apply ran] at refused
  obtain ⟨_, stopped, same⟩ := Attempt.focus_eq_error_iff.mp refused
  obtain ⟨rfl, _⟩ := Prod.mk.inj same
  rcases Session.underway_of_offerRuns_eq_error between stopped with spends | ⟨s, underway, spends⟩
  · left
    exact List.append_nil ids ▸ gains.trans (.of_spends spends)
  · right
    have idle := Program.Reachable.idle ⟨_, between⟩
    exact ⟨underway.not_gains spends idle gains (added.there reached), s, underway, spends⟩

/-- The body adds an episode that ends the execution. -/
def Session.addsEnding : Session Unit Component := do
  let id ← build (Build.addEpisode { terminal := true })
  return .episode id

theorem Session.onlyAdds_addsEnding : addsEnding.OnlyAdds := by
  intro p notes component q notes' done
  obtain ⟨id, s, added, returned⟩ := Attempt.bind_eq_ok_iff.mp done
  obtain ⟨_, rfl⟩ := Attempt.pure_eq_ok_iff.mp returned
  obtain ⟨r, added, same⟩ := Attempt.focus_eq_ok_iff.mp added
  obtain ⟨rfl, _⟩ := Prod.mk.inj same
  exact ⟨_, .own .start added⟩

/-- Two runs of a body that ends the execution succeed, but nothing can be put behind the
first of them. -/
theorem Program.exists_loop_ending : ∃ components k fault q,
    Session.addsEnding.runs 2 (ofConfig {}, ()) = .ok components (k, ()) ∧
      Session.loop Session.addsEnding .zero .zero 2 (ofConfig {}, ()) = .error fault (q, ()) := by
  obtain ⟨components, ran⟩ := Attempt.exists_eq_ok_after
    (Session.addsEnding.runs 2) (ofConfig {}, ()) (by decide +kernel)
  generalize Attempt.after _ _ = t at ran
  obtain ⟨k, ⟨⟩⟩ := t
  obtain ⟨fault, ⟨q, ⟨⟩⟩, refused⟩ := Attempt.exists_of_isRefused (by decide +kernel :
    (Session.loop Session.addsEnding .zero .zero 2).isRefused (ofConfig {}, ()) = true)
  exact ⟨components, k, fault, q, ran, refused⟩

theorem Program.refused_loop_leaves_what_it_finished_ending : ∃ components k fault q,
    Reached .free (ofConfig {}) [] ∧ Session.addsEnding.OnlyAdds ∧
      Session.addsEnding.runs 2 (ofConfig {}, ()) = .ok components (k, ()) ∧
      Session.loop Session.addsEnding .zero .zero 2 (ofConfig {}, ()) = .error fault (q, ()) ∧
      ∃ ids, (ofConfig {}).AddsEpisodes ids k ∧ (ofConfig {}).Gains ids k ∧
        ((ofConfig {}).Gains ids q ∨ ¬ (ofConfig {}).Gains ids q ∧
          ∃ s, Session.Underway .zero .zero k components s ∧ s.Spends q) := by
  have reached : Reached .free (ofConfig {}) [] := reached_of_config (by decide +kernel)
  obtain ⟨components, k, fault, q, ran, refused⟩ := exists_loop_ending
  exact ⟨components, k, fault, q, reached, Session.onlyAdds_addsEnding, ran, refused,
    refused_loop_leaves_what_it_finished reached Session.onlyAdds_addsEnding ran refused⟩

/-- The loop is refused although all runs of its body succeed, and leaves a choice, a composite
and a way out, where there was nothing before. The composite is found by its id. -/
theorem Program.refused_loop_leaves_decision : ∃ components k fault q,
    Reached .free (ofConfig {}) [] ∧ Session.addsEnding.OnlyAdds ∧
      Session.addsEnding.runs 2 (ofConfig {}, ()) = .ok components (k, ()) ∧
      Session.loop Session.addsEnding .zero .zero 2 (ofConfig {}, ()) = .error fault (q, ()) ∧
      (∀ ids, ¬ (ofConfig {}).Gains ids q) ∧
      k.network.episodes.size = 2 ∧ q.network.episodes.size = 4 ∧
      (∃ c, q.network.choice ⟨6⟩ = .ok c) ∧
      (∃ e, q.network.episode ⟨3⟩ = .ok e ∧ e.isPrimitive = false) ∧
      q.registry.get? "Episode_18" = some ⟨3⟩ := by
  have reached : Reached .free (ofConfig {}) [] := reached_of_config (by decide +kernel)
  obtain ⟨components, k, fault, q, ran, refused⟩ := exists_loop_ending
  have added : ((Session.addsEnding.runs 2).after (ofConfig {}, ())).1.network.episodes.size = 2 := by
    decide +kernel
  let left := ((Session.loop Session.addsEnding .zero .zero 2).after (ofConfig {}, ())).1
  have size : left.network.episodes.size = 4 := by decide +kernel
  have choice : (left.network.choice ⟨6⟩).toOption.isSome = true := by decide +kernel
  have composite : (left.network.episode ⟨3⟩).toOption.map (·.isPrimitive) = some false := by
    decide +kernel
  have named : left.registry.get? "Episode_18" = some ⟨3⟩ := by decide +kernel
  have same : left = q := congrArg Prod.fst (Attempt.after_of_error refused)
  rw [Attempt.after_of_ok ran] at added
  rw [same] at size choice composite named
  obtain ⟨c, chosen⟩ := Option.isSome_iff_exists.mp choice
  obtain ⟨e, found, notPrimitive⟩ := Option.map_eq_some_iff.mp composite
  have chosen := toOption_eq_some_iff.mp chosen
  have littered (ids : List EpisodeId) : ¬ (ofConfig {}).Gains ids q := fun gains => by
    cases gains.network.choice chosen
  exact ⟨components, k, fault, q, reached, Session.onlyAdds_addsEnding, ran, refused, littered,
    added, size, ⟨c, chosen⟩, ⟨e, toOption_eq_some_iff.mp found, notPrimitive⟩, named⟩

end PlanNetwork
