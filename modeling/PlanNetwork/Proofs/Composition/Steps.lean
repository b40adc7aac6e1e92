/-
# The steps of a composition

When a composition has succeeded, so have its steps. The lemmas below say which
steps these are and between which networks they were taken. What a composition
does is then read off what each of its steps does.
-/

import PlanNetwork.Composition.Branching
import PlanNetwork.Composition.Parallel
import PlanNetwork.Composition.Sequence
import PlanNetwork.Proofs.Network.Success

namespace PlanNetwork

open Network

variable {n m : Network}

namespace Edit

theorem eventOrNew_eq_ok {given : Option EventId} {id : EventId}
    (done : eventOrNew given n = .ok id m) :
    given = some id ∧ m = n ∨ given = none ∧ ¬ n.Has (.event id) := by
  cases given with
  | some id' =>
    obtain ⟨rfl, rfl⟩ := Attempt.pure_eq_ok_iff.mp done
    exact .inl ⟨rfl, rfl⟩
  | none =>
    obtain ⟨_, k, counted, pushed⟩ := Attempt.bind_eq_ok_iff.mp done
    obtain ⟨_, rfl⟩ := allocate_eq_ok_iff.mp counted
    obtain ⟨rfl, _⟩ := pushEvent_eq_ok_iff.mp pushed
    exact .inr ⟨rfl, not_has_event rfl⟩

/-- The episode that a composition makes. -/
theorem episode_addComposite {options : CompositionOptions} {start finish : EventId}
    {composition : Composition} {constraints : List TemporalId} {terminal : Bool} {id : EpisodeId}
    (made : addComposite options start finish composition constraints terminal n = .ok id m) :
    ∃ e, m.episode id = .ok e ∧ e.start = start ∧ e.finish = finish ∧
      e.composition = composition ∧ e.constraints = .ofList constraints ∧ e.terminal = terminal := by
  obtain ⟨_, k, _, made⟩ := Attempt.bind_eq_ok_iff.mp made
  obtain ⟨_, _, made⟩ := Attempt.read_bind_eq_ok_iff.mp made
  obtain ⟨_, _, made⟩ := Attempt.read_bind_eq_ok_iff.mp made
  obtain ⟨_, k, _, pushed⟩ := Attempt.bind_eq_ok_iff.mp made
  obtain ⟨rfl, rfl⟩ := pushEpisode_eq_ok_iff.mp pushed
  exact ⟨_, lookup_push_self rfl, rfl, rfl, rfl, rfl, rfl⟩

/-! ## Sequences -/

variable {options : CompositionOptions} {gap : Number}

theorem openSequence_eq_ok {firstStart lastFinish : EventId}
    {opened : EventId × EventId × List TemporalId}
    (done : openSequence options firstStart lastFinish n = .ok opened m) :
    options.mode.getD .shared = .shared ∧ m = n ∧
        opened = (options.start.getD firstStart, options.finish.getD lastFinish, []) ∨
      options.mode.getD .shared = .boundary ∧ ∃ start finish opening k₁ k₂,
        eventOrNew options.start n = .ok start k₁ ∧ eventOrNew options.finish k₁ = .ok finish k₂ ∧
        link start firstStart (.precedence options.gap) k₂ = .ok opening m ∧
        opened = (start, finish, [opening]) := by
  unfold openSequence at done
  cases mode : options.mode.getD .shared with
  | shared =>
    rw [mode] at done
    obtain ⟨rfl, rfl⟩ := Attempt.pure_eq_ok_iff.mp done
    exact .inl ⟨rfl, rfl, rfl⟩
  | boundary =>
    rw [mode] at done
    obtain ⟨start, k₁, first, done⟩ := Attempt.bind_eq_ok_iff.mp done
    obtain ⟨finish, k₂, second, done⟩ := Attempt.bind_eq_ok_iff.mp done
    obtain ⟨opening, _, linked, done⟩ := Attempt.bind_eq_ok_iff.mp done
    obtain ⟨rfl, rfl⟩ := Attempt.pure_eq_ok_iff.mp done
    exact .inr ⟨rfl, start, finish, opening, k₁, k₂, first, second, linked, rfl⟩

theorem openSequence_eq_ok_of_shared {firstStart lastFinish : EventId}
    {opened : EventId × EventId × List TemporalId}
    (done : openSequence options firstStart lastFinish n = .ok opened m)
    (mode : options.mode.getD .shared = .shared) :
    m = n ∧ opened = (options.start.getD firstStart, options.finish.getD lastFinish, []) := by
  rcases openSequence_eq_ok done with ⟨_, same⟩ | ⟨boundary, _⟩
  · exact same
  · rw [mode] at boundary
    cases boundary

theorem openSequence_eq_ok_of_boundary {firstStart lastFinish : EventId}
    {opened : EventId × EventId × List TemporalId}
    (done : openSequence options firstStart lastFinish n = .ok opened m)
    (mode : options.mode.getD .shared = .boundary) : ∃ start finish opening k₁ k₂,
      eventOrNew options.start n = .ok start k₁ ∧ eventOrNew options.finish k₁ = .ok finish k₂ ∧
      link start firstStart (.precedence options.gap) k₂ = .ok opening m ∧
      opened = (start, finish, [opening]) := by
  rcases openSequence_eq_ok done with ⟨shared, _⟩ | ⟨_, steps⟩
  · rw [mode] at shared
    cases shared
  · exact steps

theorem follow_eq_ok {first second : EpisodeId} {c : TemporalId}
    (done : follow gap first second n = .ok c m) : ∃ before s k after t,
      n.episode first = .ok before ∧ before.terminal = false ∧
      n.support (.event before.finish) = .ok s ∧ propagate second s n = .ok () k ∧
      k.episode second = .ok after ∧ k.support (.event before.finish) = .ok t ∧
      linkUnder before.finish after.start (.precedence gap) t k = .ok c m := by
  obtain ⟨before, found, done⟩ := Attempt.read_bind_eq_ok_iff.mp done
  by_cases terminal : before.terminal = true
  · rw [if_pos terminal] at done
    cases done
  rw [if_neg terminal] at done
  obtain ⟨s, there, done⟩ := Attempt.read_bind_eq_ok_iff.mp done
  obtain ⟨_, k, propagated, done⟩ := Attempt.bind_eq_ok_iff.mp done
  obtain ⟨after, found', done⟩ := Attempt.read_bind_eq_ok_iff.mp done
  obtain ⟨t, there', linked⟩ := Attempt.read_bind_eq_ok_iff.mp done
  exact ⟨before, s, k, after, t, found, by simpa using terminal, there, propagated, found', there',
    linked⟩

theorem followAll_cons_eq_ok {first second : EpisodeId} {rest : List EpisodeId}
    {links : List TemporalId} (done : followAll gap (first :: second :: rest) n = .ok links m) :
    ∃ c k others, follow gap first second n = .ok c k ∧
      followAll gap (second :: rest) k = .ok others m ∧ links = c :: others := by
  obtain ⟨c, k, followed, later⟩ := Attempt.bind_eq_ok_iff.mp done
  obtain ⟨others, _, remaining, ended⟩ := Attempt.bind_eq_ok_iff.mp later
  obtain ⟨rfl, rfl⟩ := Attempt.pure_eq_ok_iff.mp ended
  exact ⟨c, k, others, followed, remaining, rfl⟩

theorem closeSequence_eq_ok {lastFinish finish : EventId} {links : List TemporalId}
    (done : closeSequence options lastFinish finish n = .ok links m) :
    options.mode.getD .shared = .shared ∧ m = n ∧ links = [] ∨
      options.mode.getD .shared = .boundary ∧ ∃ s k closing,
        n.support (.event lastFinish) = .ok s ∧ setSupport (.event finish) s n = .ok () k ∧
        linkUnder lastFinish finish (.precedence options.gap) s k = .ok closing m ∧
        links = [closing] := by
  unfold closeSequence at done
  cases mode : options.mode.getD .shared with
  | shared =>
    rw [mode] at done
    obtain ⟨rfl, rfl⟩ := Attempt.pure_eq_ok_iff.mp done
    exact .inl ⟨rfl, rfl, rfl⟩
  | boundary =>
    rw [mode] at done
    obtain ⟨s, there, done⟩ := Attempt.read_bind_eq_ok_iff.mp done
    obtain ⟨_, k, written, done⟩ := Attempt.bind_eq_ok_iff.mp done
    obtain ⟨closing, _, linked, done⟩ := Attempt.bind_eq_ok_iff.mp done
    obtain ⟨rfl, rfl⟩ := Attempt.pure_eq_ok_iff.mp done
    exact .inr ⟨rfl, s, k, closing, there, written, linked, rfl⟩

/-- The steps of a sequence from the first network to the last one. -/
theorem sequence_eq_ok {ids : List EpisodeId} {id : EpisodeId}
    (done : sequence ids options n = .ok id m) : ∃ first last n' m' firstEpisode lastEpisode,
      ids.head? = some first ∧ ids.getLast? = some last ∧ Same n n' ∧ Same m' m ∧
      n'.episode first = .ok firstEpisode ∧ n'.episode last = .ok lastEpisode ∧
      ∃ opened k₁ links k₂ closing k₃,
        openSequence options firstEpisode.start lastEpisode.finish n' = .ok opened k₁ ∧
        followAll options.gap ids k₁ = .ok links k₂ ∧
        closeSequence options lastEpisode.finish opened.2.1 k₂ = .ok closing k₃ ∧
        addComposite options opened.1 opened.2.1 (.sequence ids)
          (opened.2.2 ++ links ++ closing) lastEpisode.terminal k₃ = .ok id m' := by
  unfold sequence at done
  cases isFirst : ids.head? with
  | none =>
    rw [isFirst] at done
    cases done
  | some first =>
    cases isLast : ids.getLast? with
    | none =>
      rw [isFirst, isLast] at done
      cases done
    | some last =>
      rw [isFirst, isLast] at done
      obtain ⟨n', m', start, steps, finish⟩ := exists_same_of_atomically_eq_ok done
      obtain ⟨firstEpisode, found, steps⟩ := Attempt.read_bind_eq_ok_iff.mp steps
      obtain ⟨lastEpisode, found', steps⟩ := Attempt.read_bind_eq_ok_iff.mp steps
      obtain ⟨opened, k₁, opening, steps⟩ := Attempt.bind_eq_ok_iff.mp steps
      obtain ⟨links, k₂, following, steps⟩ := Attempt.bind_eq_ok_iff.mp steps
      obtain ⟨closed, k₃, closing, made⟩ := Attempt.bind_eq_ok_iff.mp steps
      exact ⟨first, last, n', m', firstEpisode, lastEpisode, rfl, rfl, start, finish, found,
        found', opened, k₁, links, k₂, closed, k₃, opening, following, closing, made⟩

/-! ## Parallel compositions -/

theorem joinBranch_eq_ok {start finish : EventId} {id : EpisodeId} {links : TemporalId × TemporalId}
    (done : joinBranch start finish id n = .ok links m) : ∃ e k₁ k₂ s, n.episode id = .ok e ∧
      link start e.start (.precedence .infinity) n = .ok links.1 k₁ ∧
      link e.finish finish (.precedence .infinity) k₁ = .ok links.2 k₂ ∧
      k₂.support (.event e.finish) = .ok s ∧ narrow (.event finish) s k₂ = .ok () m := by
  obtain ⟨e, found, done⟩ := Attempt.read_bind_eq_ok_iff.mp done
  obtain ⟨opening, k₁, opened, done⟩ := Attempt.bind_eq_ok_iff.mp done
  obtain ⟨closing, k₂, closed, done⟩ := Attempt.bind_eq_ok_iff.mp done
  obtain ⟨s, there, done⟩ := Attempt.read_bind_eq_ok_iff.mp done
  obtain ⟨_, _, narrowed, done⟩ := Attempt.bind_eq_ok_iff.mp done
  obtain ⟨rfl, rfl⟩ := Attempt.pure_eq_ok_iff.mp done
  exact ⟨e, k₁, k₂, s, found, opened, closed, there, narrowed⟩

theorem joinBranches_cons_eq_ok {start finish : EventId} {id : EpisodeId} {rest : List EpisodeId}
    {links : List (TemporalId × TemporalId)}
    (done : joinBranches start finish (id :: rest) n = .ok links m) : ∃ l k others,
      joinBranch start finish id n = .ok l k ∧ joinBranches start finish rest k = .ok others m ∧
      links = l :: others := by
  obtain ⟨l, k, joined, later⟩ := Attempt.bind_eq_ok_iff.mp done
  obtain ⟨others, _, remaining, ended⟩ := Attempt.bind_eq_ok_iff.mp later
  obtain ⟨rfl, rfl⟩ := Attempt.pure_eq_ok_iff.mp ended
  exact ⟨l, k, others, joined, remaining, rfl⟩

/-- The steps of a parallel composition from the first network to the last one. -/
theorem parallel_eq_ok {ids : List EpisodeId} {id : EpisodeId}
    (done : parallel ids options n = .ok id m) :
    checkNotTerminal n ids = .ok () ∧ ∃ n' m', Same n n' ∧ Same m' m ∧
      ∃ start k₁ finish k₂ links k₃ joint k₄,
        eventOrNew options.start n' = .ok start k₁ ∧ eventOrNew options.finish k₁ = .ok finish k₂ ∧
        joinBranches start finish ids k₂ = .ok links k₃ ∧
        k₃.support (.event finish) = .ok joint ∧
        Attempt.each (fun link => setSupport (.temporal link.2) joint) links k₃ = .ok () k₄ ∧
        addComposite options start finish (.parallel ids) (links.map (·.1) ++ links.map (·.2))
          false k₄ = .ok id m' := by
  unfold parallel at done
  split at done
  · cases done
  obtain ⟨_, checked, done⟩ := Attempt.read_bind_eq_ok_iff.mp done
  obtain ⟨n', m', begins, steps, ends⟩ := exists_same_of_atomically_eq_ok done
  obtain ⟨start, k₁, first, steps⟩ := Attempt.bind_eq_ok_iff.mp steps
  obtain ⟨finish, k₂, second, steps⟩ := Attempt.bind_eq_ok_iff.mp steps
  obtain ⟨links, k₃, joined, steps⟩ := Attempt.bind_eq_ok_iff.mp steps
  obtain ⟨joint, there, steps⟩ := Attempt.read_bind_eq_ok_iff.mp steps
  obtain ⟨_, k₄, closed, made⟩ := Attempt.bind_eq_ok_iff.mp steps
  exact ⟨checked, n', m', begins, ends, start, k₁, finish, k₂, links, k₃, joint, k₄, first, second,
    joined, there, closed, made⟩

/-! ## Branchings -/

theorem linkWith_eq_ok {start finish : EventId} {literal : Literal} {id : TemporalId}
    (done : linkWith start finish literal n = .ok id m) : ∃ k,
      link start finish (.precedence .infinity) n = .ok id k ∧
      addLiteral (.temporal id) literal k = .ok () m := by
  obtain ⟨id, k, linked, rest⟩ := Attempt.bind_eq_ok_iff.mp done
  obtain ⟨_, _, added, last⟩ := Attempt.bind_eq_ok_iff.mp rest
  obtain ⟨rfl, rfl⟩ := Attempt.pure_eq_ok_iff.mp last
  exact ⟨k, linked, added⟩

theorem addBranch_eq_ok {choice finish : EventId} {subject : ChoiceVariable} {value : String}
    {id : EpisodeId} {branch : Branch}
    (done : addBranch choice finish subject value id n = .ok branch m) : ∃ k e opening k₁,
      propagate id (.ofLiteral (.is subject value)) n = .ok () k ∧ k.episode id = .ok e ∧
      linkWith choice e.start (.is subject value) k = .ok opening k₁ ∧
      (e.terminal = true ∧ m = k₁ ∧ branch = ⟨[opening], value, true⟩ ∨
        e.terminal = false ∧ ∃ closing,
          linkWith e.finish finish (.is subject value) k₁ = .ok closing m ∧
          branch = ⟨[opening, closing], value, false⟩) := by
  obtain ⟨_, k, propagated, done⟩ := Attempt.bind_eq_ok_iff.mp done
  obtain ⟨e, found, done⟩ := Attempt.read_bind_eq_ok_iff.mp done
  obtain ⟨opening, k₁, opened, done⟩ := Attempt.bind_eq_ok_iff.mp done
  refine ⟨k, e, opening, k₁, propagated, found, opened, ?_⟩
  by_cases terminal : e.terminal = true
  · rw [if_pos terminal] at done
    obtain ⟨rfl, rfl⟩ := Attempt.pure_eq_ok_iff.mp done
    exact .inl ⟨terminal, rfl, rfl⟩
  · rw [if_neg terminal] at done
    obtain ⟨closing, _, closed, done⟩ := Attempt.bind_eq_ok_iff.mp done
    obtain ⟨rfl, rfl⟩ := Attempt.pure_eq_ok_iff.mp done
    exact .inr ⟨by simpa using terminal, closing, closed, rfl⟩

theorem addBranches_cons_eq_ok {choice finish : EventId} {subject : ChoiceVariable}
    {entry : String × EpisodeId} {rest : List (String × EpisodeId)} {branches : List Branch}
    (done : addBranches choice finish subject (entry :: rest) n = .ok branches m) :
    ∃ branch k others, addBranch choice finish subject entry.1 entry.2 n = .ok branch k ∧
      addBranches choice finish subject rest k = .ok others m ∧ branches = branch :: others := by
  obtain ⟨branch, k, added, later⟩ := Attempt.bind_eq_ok_iff.mp done
  obtain ⟨others, _, remaining, ended⟩ := Attempt.bind_eq_ok_iff.mp later
  obtain ⟨rfl, rfl⟩ := Attempt.pure_eq_ok_iff.mp ended
  exact ⟨branch, k, others, added, remaining, rfl⟩

/-- Whether the end of a branching is kept from the values of the branches that
end the execution: some of them do, but not all. -/
def Divided (subject : ChoiceVariable) (branches : List Branch) : Prop :=
  (branches.filter (·.terminal)).length ≠ subject.arity ∧ branches.filter (·.terminal) ≠ []

/-- The steps of a branching from the first network to the last one. -/
theorem branch_eq_ok {choice : EventId} {ids : List EpisodeId} {id : EpisodeId}
    (done : branch choice ids options n = .ok id m) : ∃ data, n.choice choice = .ok data ∧
      data.subject.arity = ids.length ∧ ∃ n' m', Same n n' ∧ Same m' m ∧
      ∃ finish k₁ branches k₂ k₃, eventOrNew options.finish n' = .ok finish k₁ ∧
        addBranches choice finish data.subject (data.subject.domain.zip ids) k₁ =
          .ok branches k₂ ∧
        (Divided data.subject branches ∧ setConjunction (.event finish)
            (.ofList ((branches.filter (·.terminal)).map (.isNot data.subject ·.value))) k₂ =
              .ok () k₃ ∨
          ¬ Divided data.subject branches ∧ k₃ = k₂) ∧
        addComposite options choice finish (.branching choice ids) (branches.flatMap (·.links))
          ((branches.filter (·.terminal)).length == data.subject.arity) k₃ = .ok id m' := by
  obtain ⟨data, chosen, done⟩ := Attempt.read_bind_eq_ok_iff.mp done
  by_cases mismatch : data.subject.arity ≠ ids.length
  · rw [if_pos mismatch] at done
    cases done
  rw [if_neg mismatch] at done
  obtain ⟨n', m', begins, steps, ends⟩ := exists_same_of_atomically_eq_ok done
  obtain ⟨finish, k₁, first, steps⟩ := Attempt.bind_eq_ok_iff.mp steps
  obtain ⟨branches, k₂, added, steps⟩ := Attempt.bind_eq_ok_iff.mp steps
  refine ⟨data, chosen, not_not.mp mismatch, n', m', begins, ends, finish, k₁, branches, k₂, ?_⟩
  dsimp only at steps
  split at steps
  next some =>
    obtain ⟨_, k₃, written, made⟩ := Attempt.bind_eq_ok_iff.mp steps
    refine ⟨k₃, first, added, .inl ⟨?_, written⟩, made⟩
    simpa [Divided] using some
  next none =>
    refine ⟨k₂, first, added, .inr ⟨?_, rfl⟩, steps⟩
    simpa [Divided] using none

end Edit

end PlanNetwork
