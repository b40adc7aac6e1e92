/-
# Composites contain their children in time

Whoever meets the links of a composite executes its children inside it. No child
starts before it does, it does not end before a child that gets there has, and the
children of a sequence take turns. This holds as long as the events at the ends are
those of children or are linked to them. A sequence that shares the events of its
children takes an event that it is given in their place without a link. The end of a
sequence with boundary events, and that of a branching of which some branches end the
execution, gets a guard of its own after links have been made under the one that it
had, so it has to occur under that one too.
-/

import PlanNetwork.Proofs.Composition.Binding
import PlanNetwork.Proofs.Program.Literals
import PlanNetwork.Proofs.Program.Recursion

namespace PlanNetwork

open Network

variable {V : Vocabulary} {v : Valuation V} {n m : Network} {id : EpisodeId} {e : Episode}
  {t : Schedule}

namespace Composing

/-! ## What is said about a composition -/

/-- The episode is composed, and a branching selects it. -/
def Runs (n : Network) (v : Valuation V) : Composing → EpisodeId → Prop
  | sequence ids _, id | parallel ids _, id => id ∈ ids
  | branch choice ids _, id => ∃ data, n.choice choice = .ok data ∧
    (v.value data.subject.key, id) ∈ data.subject.domain.zip ids

/-- The events at the ends are those of children, or the links to them apply wherever
the events do. -/
def Anchored (n : Network) (v : Valuation V) : Composing → Prop
  | sequence ids options =>
    match options.mode.getD .shared with
    | .shared =>
      (∀ first ∈ ids.head?, ∀ e, n.episode first = .ok e → options.start.getD e.start = e.start) ∧
      ∀ last ∈ ids.getLast?, ∀ e, n.episode last = .ok e → options.finish.getD e.finish = e.finish
    | .boundary =>
      ∀ finish, options.finish = some finish →
        (options.start = some finish ∨
          ∃ id ∈ ids, ∃ e, n.episode id = .ok e ∧ (finish = e.start ∨ finish = e.finish)) →
        n.Occurs v (.event finish)
  | parallel _ _ => True
  | branch choice ids options =>
    n.Divided ids → ∀ finish, options.finish = some finish → n.Occurs v (.event finish) ∧
      ∀ data, n.choice choice = .ok data → ∀ entry ∈ data.subject.domain.zip ids,
        v.value data.subject.key ≠ entry.1 → .event finish ∉ n.parts entry.2

/-- All events involved occur in the end: those of the children that run, the start,
and the end if one of these children gets there. -/
structure Enacted (composing : Composing) (n m : Network) (v : Valuation V) (e : Episode) : Prop where
  /-- The composite starts. -/
  start : m.Occurs v (.event e.start)
  /-- The children start and end. -/
  inner : ∀ {id f}, composing.Runs n v id → n.episode id = .ok f →
    m.Occurs v (.event f.start) ∧ m.Occurs v (.event f.finish)
  /-- The composite ends, unless its children end the execution. -/
  finish : ∀ {id}, composing.Runs n v id → n.isTerminal id = false → m.Occurs v (.event e.finish)

/-- The children that run take as long as their durations allow, and not less than no
time. -/
def Lasts (composing : Composing) (n : Network) (v : Valuation V) (t : Schedule) : Prop :=
  ∀ {id f c}, composing.Runs n v id → n.episode id = .ok f → n.temporal f.duration = .ok c →
    Number.zero.le c.bounds.lower = true ∧ c.bounds.Allow (t c.finish - t c.start)

/-- The children that run are executed inside the composite, and in a sequence one
after the other. -/
structure Contains (composing : Composing) (n : Network) (v : Valuation V) (t : Schedule)
    (e : Episode) : Prop where
  /-- They do not start before it. -/
  opening : ∀ {id f}, composing.Runs n v id → n.episode id = .ok f → t e.start ≤ t f.start
  /-- If they do not end the execution, they do not end after it. -/
  closing : ∀ {id f}, composing.Runs n v id → n.episode id = .ok f → f.terminal = false →
    t f.finish ≤ t e.finish
  /-- A child of a sequence does not end after the next one starts, and not before if
  there is no gap. -/
  between : ∀ {ids options first second f g}, composing = .sequence ids options →
    [first, second] <:+: ids → n.episode first = .ok f → n.episode second = .ok g →
    t f.finish ≤ t g.start ∧ (options.noWait.getD false = true → t f.finish = t g.start)

section Ends

variable {ids : List EpisodeId} {options : CompositionOptions}
  (anchored : (Composing.sequence ids options).Anchored n v)

include anchored

theorem Anchored.of_shared (mode : options.mode.getD .shared = .shared) :
    (∀ first ∈ ids.head?, ∀ e, n.episode first = .ok e → options.start.getD e.start = e.start) ∧
      ∀ last ∈ ids.getLast?, ∀ e, n.episode last = .ok e →
        options.finish.getD e.finish = e.finish := by
  rw [Anchored, mode] at anchored
  exact anchored

theorem Anchored.of_boundary (mode : options.mode.getD .shared = .boundary) {finish : EventId}
    (given : options.finish = some finish)
    (own : options.start = some finish ∨
      ∃ id ∈ ids, ∃ e, n.episode id = .ok e ∧ (finish = e.start ∨ finish = e.finish)) :
    n.Occurs v (.event finish) := by
  rw [Anchored, mode] at anchored
  exact anchored finish given own

end Ends

end Composing

namespace Edit

variable {ids : List EpisodeId} {options : CompositionOptions}

/-! ## Which events are linked -/

theorem isTerminal_of_checkNotTerminal (checked : checkNotTerminal n ids = .ok ()) :
    ∀ id ∈ ids, n.isTerminal id = false := by
  induction ids with
  | nil => nofun
  | cons id rest ih =>
    obtain ⟨f, found, checked⟩ := bind_eq_ok_iff.mp checked
    by_cases terminal : f.terminal = true
    · rw [if_pos terminal] at checked
      cases checked
    · rw [if_neg terminal] at checked
      exact List.forall_mem_cons.mpr
        ⟨(isTerminal_eq found).trans (by simpa using terminal), ih checked⟩

/-- In a parallel composition the start is linked to the starts of all episodes, and
their ends to the end. -/
theorem precedes_parallel (done : parallel ids options n = .ok id m) (found : m.episode id = .ok e)
    (uses : n.Uses (Literal.Within V))
    (occurs : m.Occurs v (.event e.start) ∧ m.Occurs v (.event e.finish)) :
    ∀ id ∈ ids, ∃ f, n.episode id = .ok f ∧
      (m.Occurs v (.event f.start) → m.Occurs v (.event f.finish) →
        m.Precedes v e.constraints e.start f.start ∧
          m.Precedes v e.constraints f.finish e.finish) := by
  obtain ⟨_, n', m', begins, ends, start, k₁, finish, k₂, links, k₃, joint, k₄, first, second, joined,
    there, closed, made⟩ := parallel_eq_ok done
  obtain ⟨e', found', rfl, rfl, _, constraints, _⟩ := episode_addComposite made
  obtain rfl := Except.ok.inj (found.symm.trans (ends.episode found'))
  have uses₂ : k₂.Uses (Literal.Within V) := (repeats_eventOrNew _).of_ok second
    ((repeats_eventOrNew _).of_ok first (uses.of_same begins))
  have uses₃ : k₃.Uses (Literal.Within V) := (repeats_joinBranches _ _ _).of_ok joined uses₂
  have episodes : SameEpisodes n k₂ := ((SameEpisodes.of_bare begins.bare).trans
    (sameEpisodes_eventOrNew first)).trans (sameEpisodes_eventOrNew second)
  have last : Tightened (fun _ => False) (fun _ => False) k₄ m :=
    .trans ((tightens_addComposite ..).of_ok made) (.of_same ends)
  have closes := tightened_closeLinks closed
  have later : Tightened (fun _ => True)
      (fun element => ∃ l ∈ links, Guarded.temporal l.2 = element) k₃ m :=
    (closes.mono (fun _ _ => False.elim) fun _ _ same => same).trans last.widen
  have kept (event : EventId) : ¬ ∃ l ∈ links, Guarded.temporal l.2 = .event event :=
    fun ⟨_, _, same⟩ => Guarded.noConfusion same
  -- the links to the end are given its support, which holds
  have spares : SparesAt v k₃ k₄ := sparesAt_each_setSupport closed uses₃.speaks
    (uses₃.speaks.support there) (later.occurs_of_support (kept _) there occurs.2)
  intro id member
  obtain ⟨f, found₂, binds⟩ := binds_joinBranches joined uses₂ later kept occurs id member
  obtain ⟨g, found₀⟩ := episodes.symm.episode found₂
  refine ⟨_, found₀, fun opens closes' => ?_⟩
  obtain ⟨l, among, first, second⟩ := binds opens closes'
  have listed : l.1 ∈ e.constraints.toList ∧ l.2 ∈ e.constraints.toList := by
    simp only [constraints, OrdSet.mem_ofList_iff, List.mem_append]
    exact ⟨.inl (List.mem_map_of_mem among), .inr (List.mem_map_of_mem among)⟩
  exact ⟨.inr ⟨_, l.1, listed.1, (first.spared closes.toGrows spares).tightened last not_false
    not_false⟩, .inr ⟨_, l.2, listed.2, (second.spared closes.toGrows spares).tightened last
    not_false not_false⟩⟩

/-- Once the branches are linked, the end of a branching occurs under the guard that it has: a
new one does, and one that is given if it did so before and no branch that is not selected has
it. -/
theorem occurs_finish_of_addBranches {choice finish : EventId} {subject : ChoiceVariable}
    {entries : List (String × EpisodeId)} {branches : List Branch} {k₁ k₂ : Network}
    (first : eventOrNew options.finish n = .ok finish k₁)
    (added : addBranches choice finish subject entries k₁ = .ok branches k₂)
    (uses : k₁.Uses (Literal.Within V))
    (within : ∀ entry ∈ entries, (Literal.is subject entry.1).Within V)
    (there : ∀ entry ∈ entries, ∀ element ∈ n.parts entry.2, n.Has element)
    (given : options.finish = some finish → n.Occurs v (.event finish) ∧
      ∀ entry ∈ entries, v.value subject.key ≠ entry.1 → .event finish ∉ n.parts entry.2) :
    k₂.Occurs v (.event finish) := by
  have ready : k₁.Occurs v (.event finish) := occurs_eventOrNew first fun asked => (given asked).1
  refine (occurs_addBranches_iff added uses within ready.has).mpr
    ⟨ready, fun entry member part => ?_⟩
  rw [(sameEpisodes_eventOrNew first).parts] at part
  by_contra differ
  rcases eventOrNew_eq_ok first with ⟨asked, _⟩ | ⟨_, new⟩
  · exact (given asked).2 entry member differ part
  · exact new (there entry member _ part)

section Divided

variable {choice : EventId} {data : Choice} {n' k₁ k₂ : Network} {branches : List Branch}
  (chosen : n.choice choice = .ok data) (begins : Same n n')
  (first : eventOrNew options.finish n' = .ok e.finish k₁)
  (added : addBranches choice e.finish data.subject (data.subject.domain.zip ids) k₁ =
    .ok branches k₂)
  (uses : n.Uses (Literal.Within V)) (whole : n.WellFormed)
  (anchored : (Composing.branch choice ids options).Anchored n v) (divided : n.Divided ids)

include chosen begins first added uses whole anchored divided

theorem occurs_finish_of_divided : k₂.Occurs v (.event e.finish) := by
  have parts : n'.parts = n.parts := funext (SameEpisodes.of_bare begins.bare).parts
  have uses₁ : k₁.Uses (Literal.Within V) :=
    (repeats_eventOrNew _).of_ok first (uses.of_same begins)
  refine occurs_finish_of_addBranches first added uses₁ (fun _ => uses.is_of_mem_zip chosen)
    (fun entry _ element part => ?_) fun given => ?_
  · rw [parts] at part
    exact begins.adds.has (whole.has_of_mem_parts part)
  · obtain ⟨occurs, apart⟩ := anchored divided _ given
    exact ⟨begins.occurs_iff.mpr occurs,
      fun entry member differ => parts ▸ apart data chosen entry member differ⟩

/-- If only some branches end the execution, what occurs in the end has occurred ever since
they were linked. -/
theorem occurs_addBranches_of_divided
    (later : Tightened (fun _ => False) (.event e.finish = ·) k₂ m) {event : EventId}
    (there : n.Has (.event event)) (occurs : m.Occurs v (.event event)) :
    k₂.Occurs v (.event event) := by
  by_cases same : e.finish = event
  · exact same ▸ occurs_finish_of_divided chosen begins first added uses whole anchored divided
  · have starts : Tightened (fun _ => True) (fun _ => False) n k₁ :=
      .trans (.of_same begins) ((tightens_eventOrNew _).of_ok first)
    have branching : Tightened (fun _ => True) (fun _ => False) k₁ k₂ :=
      (tightens_addBranches fun _ _ _ _ => .inl trivial).of_ok added
    exact later.occurs_before (fun equal => same (Guarded.event.inj equal))
      (branching.has (starts.has there)) occurs

end Divided

/-- In a branching the choice is linked to the start of the episode that is selected,
and the end of this episode to the end if the episode gets there. -/
theorem precedes_branch {choice : EventId} (done : branch choice ids options n = .ok id m)
    (found : m.episode id = .ok e) (uses : n.Uses (Literal.Within V)) (whole : n.WellFormed)
    (anchored : (Composing.branch choice ids options).Anchored n v)
    (enacted : (Composing.branch choice ids options).Enacted n m v e) {child : EpisodeId}
    (runs : (Composing.branch choice ids options).Runs n v child) :
    ∃ f, n.episode child = .ok f ∧ m.Precedes v e.constraints e.start f.start ∧
      (f.terminal = false → m.Precedes v e.constraints f.finish e.finish) := by
  obtain ⟨data, chosen, same, n', m', begins, ends, finish, k₁, branches, k₂, k₃, first, added, writes,
    made⟩ := branch_eq_ok done
  obtain ⟨e', found', rfl, rfl, _, constraints, _⟩ := episode_addComposite made
  obtain rfl := Except.ok.inj (found.symm.trans (ends.episode found'))
  have ⟨data', chosen', taken⟩ := runs
  obtain rfl := Except.ok.inj (chosen.symm.trans chosen')
  have uses₁ : k₁.Uses (Literal.Within V) :=
    (repeats_eventOrNew _).of_ok first (uses.of_same begins)
  have episodes : SameEpisodes n k₁ :=
    (SameEpisodes.of_bare begins.bare).trans (sameEpisodes_eventOrNew first)
  have starts : Tightened (fun _ => True) (fun _ => False) n k₁ :=
    .trans (.of_same begins) ((tightens_eventOrNew _).of_ok first)
  have last : Tightened (fun _ => False) (fun _ => False) k₃ m :=
    .trans ((tightens_addComposite ..).of_ok made) (.of_same ends)
  have later : Tightened (fun _ => False) (.event e.finish = ·) k₂ m :=
    (tightened_excludeEnded writes).trans last.widen
  -- in the end the events occur under the guards that they had when the links were made
  have resumes : ∃ k, Tightened (fun _ => True) (fun _ => False) k₂ k ∧
      k.Occurs v (.event e.start) ∧ ∀ f, n.episode child = .ok f → k.Occurs v (.event f.start) ∧
        k.Occurs v (.event f.finish) ∧ (f.terminal = false → k.Occurs v (.event e.finish)) := by
    rcases writes with ⟨some, _⟩ | ⟨_, rfl⟩
    · have divided : n.Divided ids :=
        (divided_iff same (flags_of_sameEpisodes episodes added)).mp some
      have before {event : EventId} (there : n.Has (.event event)) :
          m.Occurs v (.event event) → k₂.Occurs v (.event event) :=
        occurs_addBranches_of_divided chosen begins first added uses whole anchored divided later there
      obtain ⟨event, there, _⟩ := choice_eq_ok_iff.mp chosen
      refine ⟨k₂, .refl _, before ⟨_, map_eq_ok_iff.mpr ⟨event, there, rfl⟩⟩ enacted.start,
        fun f found => ?_⟩
      have fits := whole.episode found
      obtain ⟨opens, closes⟩ := enacted.inner runs found
      exact ⟨before (WellFormed.has_event fits.start) opens,
        before (WellFormed.has_event fits.finish) closes, fun _ =>
          occurs_finish_of_divided chosen begins first added uses whole anchored divided⟩
    · refine ⟨m, last.widen, enacted.start, fun f found => ?_⟩
      obtain ⟨opens, closes⟩ := enacted.inner runs found
      exact ⟨opens, closes, fun goes => enacted.finish runs ((isTerminal_eq found).trans goes)⟩
  obtain ⟨k, ahead, choices, inner⟩ := resumes
  obtain ⟨f, found₁, opening, closing⟩ := binds_addBranches added uses₁
    (fun _ => uses.is_of_mem_zip chosen)
    (fun entry _ element part => starts.has (whole.has_of_mem_parts (episodes.parts entry.2 ▸ part)))
    taken ahead choices
  obtain ⟨g, found₀⟩ := episodes.symm.episode found₁
  obtain ⟨opens, closes, reached⟩ := inner _ found₀
  have apart {id : TemporalId} : ¬ Guarded.event e.finish = .temporal id :=
    fun same => Guarded.noConfusion same
  refine ⟨_, found₀, ?_, fun goes => ?_⟩
  · obtain ⟨link, among, binds⟩ := opening opens
    refine .inr ⟨_, link, ?_, binds.tightened later not_false apart⟩
    rwa [constraints, OrdSet.mem_ofList_iff]
  · obtain ⟨link, among, binds⟩ := closing goes closes (reached goes)
    refine .inr ⟨_, link, ?_, binds.tightened later not_false apart⟩
    rwa [constraints, OrdSet.mem_ofList_iff]

section Opening

variable {k : Network} {firstStart lastFinish : EventId}
  {opened : EventId × EventId × List TemporalId}
  (opening : openSequence options firstStart lastFinish n = .ok opened k) (speaks : n.Speaks V)

include opening speaks

/-- What occurs in the end has occurred ever since the sequence was opened. For an end with a
guard of its own that has been given, this is to be known. -/
theorem occurs_opened (later : Tightened (fun _ => True)
      (fun element => ∃ event ∈ closingEvent options opened.2.1, Guarded.event event = element) k m)
    {event : EventId} (there : k.Has (.event event)) (occurs : m.Occurs v (.event event))
    (given : options.mode.getD .shared = .boundary → options.finish = some event →
      n.Occurs v (.event event)) : k.Occurs v (.event event) := by
  by_cases own : options.mode.getD .shared = .boundary ∧ opened.2.1 = event
  · obtain ⟨mode, rfl⟩ := own
    obtain ⟨_, _, given' | made⟩ := occurs_openSequence (v := v) opening speaks mode
    · exact (sparesAt_openSequence opening speaks).occurs (given mode given')
    · exact made
  · refine later.occurs_before ?_ there occurs
    rintro ⟨_, is, equal⟩
    obtain ⟨mode, rfl⟩ := mem_closingEvent_iff.mp is
    exact own ⟨mode, Guarded.event.inj equal⟩

/-- The start is that of the first episode, or linked to it. -/
theorem starts_openSequence
    (shared : options.mode.getD .shared = .shared → options.start.getD firstStart = firstStart)
    (start : options.mode.getD .shared = .boundary → k.Occurs v (.event opened.1))
    (first : k.Occurs v (.event firstStart)) :
    opened.1 = firstStart ∨
      ∃ link ∈ opened.2.2, k.Binds v options.gap opened.1 firstStart link := by
  cases mode : options.mode.getD .shared with
  | shared =>
    obtain ⟨_, rfl⟩ := openSequence_eq_ok_of_shared opening mode
    exact .inl (shared mode)
  | boundary => exact .inr (binds_openSequence opening speaks mode (start mode) first)

end Opening

/-- The events of the episodes of a sequence have occurred ever since it was opened, and so has
its start if it has boundary events. -/
theorem enacted_openSequence {n' k : Network} {firstStart lastFinish : EventId}
    {opened : EventId × EventId × List TemporalId} (begins : Same n n')
    (opening : openSequence options firstStart lastFinish n' = .ok opened k)
    (uses : n.Uses (Literal.Within V)) (whole : n.WellFormed)
    (anchored : (Composing.sequence ids options).Anchored n v) (starts : e.start = opened.1)
    (enacted : (Composing.sequence ids options).Enacted n m v e)
    (later : Tightened (fun _ => True)
      (fun element => ∃ event ∈ closingEvent options opened.2.1, Guarded.event event = element) k m) :
    (options.mode.getD .shared = .boundary → k.Occurs v (.event opened.1)) ∧
      ∀ id ∈ ids, ∀ f, n.episode id = .ok f →
        k.Occurs v (.event f.start) ∧ k.Occurs v (.event f.finish) := by
  have speaks' : n'.Speaks V := uses.speaks.of_same begins
  have step : Tightened (fun _ => False) (fun _ => False) n k :=
    .trans (.of_same begins) ((tightens_openSequence ..).of_ok opening)
  have resumes {event : EventId} (there : k.Has (.event event)) (occurs : m.Occurs v (.event event))
      (own : options.start = some event ∨
        ∃ id ∈ ids, ∃ f, n.episode id = .ok f ∧ (event = f.start ∨ event = f.finish)) :
      k.Occurs v (.event event) :=
    occurs_opened opening speaks' later there occurs fun mode given =>
      begins.occurs_iff.mpr (anchored.of_boundary mode given own)
  refine ⟨fun mode => ?_, fun id member f found => ?_⟩
  · obtain ⟨there, given | made, _⟩ := occurs_openSequence (v := v) opening speaks' mode
    · exact resumes there (starts ▸ enacted.start) (.inl given)
    · exact made
  · have fits := whole.episode found
    obtain ⟨opens, closes⟩ := enacted.inner member found
    exact ⟨resumes (step.has (WellFormed.has_event fits.start)) opens
        (.inr ⟨id, member, f, found, .inl rfl⟩),
      resumes (step.has (WellFormed.has_event fits.finish)) closes
        (.inr ⟨id, member, f, found, .inr rfl⟩)⟩

/-- In a sequence the end of each episode is linked to the start of the next one. The
start is that of the first episode or linked to it, and so for the end. -/
theorem precedes_sequence (done : sequence ids options n = .ok id m) (found : m.episode id = .ok e)
    (uses : n.Uses (Literal.Within V)) (whole : n.WellFormed)
    (anchored : (Composing.sequence ids options).Anchored n v)
    (enacted : (Composing.sequence ids options).Enacted n m v e) :
    (∀ first second, [first, second] <:+: ids → ∃ f g, n.episode first = .ok f ∧
      n.episode second = .ok g ∧ ∃ link ∈ e.constraints.toList,
        m.Binds v options.gap f.finish g.start link) ∧
    (∃ first ∈ ids.head?, ∃ f, n.episode first = .ok f ∧
      m.Precedes v e.constraints e.start f.start) ∧
    ∃ last ∈ ids.getLast?, ∃ f, n.episode last = .ok f ∧
      m.Precedes v e.constraints f.finish e.finish := by
  obtain ⟨first, last, n', m', firstEpisode, lastEpisode, isFirst, isLast, begins, ends, opens,
    closes, opened, k₁, links, k₂, closing, k₃, opening, following, closed, made⟩ := sequence_eq_ok done
  obtain ⟨e', found', isStart, isFinish, _, constraints, _⟩ := episode_addComposite made
  obtain rfl := Except.ok.inj (found.symm.trans (ends.episode found'))
  rw [← isFinish] at closed
  have speaks' : n'.Speaks V := uses.speaks.of_same begins
  have episodes : SameEpisodes n k₁ :=
    (SameEpisodes.of_bare begins.bare).trans (sameEpisodes_openSequence opening)
  have first₀ := begins.episode_iff.mp opens
  have last₀ := begins.episode_iff.mp closes
  have follows : Tightened (fun _ => True) (fun _ => False) k₁ k₂ :=
    (tightens_followAll fun _ _ _ _ => .inl trivial).of_ok following
  have ending : Tightened (fun _ => False) (fun _ => False) k₃ m :=
    .trans ((tightens_addComposite ..).of_ok made) (.of_same ends)
  have rest : Tightened (fun _ => False)
      (fun element => ∃ event ∈ closingEvent options e.finish, Guarded.event event = element) k₂ m :=
    (tightened_closeSequence closed).trans ending.widen
  have later : Tightened (fun _ => True)
      (fun element => ∃ event ∈ closingEvent options e.finish, Guarded.event event = element) k₁ m :=
    (follows.mono (fun _ _ _ => .inl trivial) fun _ _ => False.elim).trans
      (rest.mono (fun _ _ => False.elim) fun _ _ given => given)
  -- the events have occurred ever since the sequence was opened
  obtain ⟨start, inner⟩ := enacted_openSequence begins opening uses whole anchored isStart enacted
    (isFinish ▸ later)
  -- so nothing is lost from then on
  obtain ⟨follow, consecutive⟩ := binds_followAll following
    (sparesAt_openSequence (v := v) opening speaks').speaks fun id member f found => by
      obtain ⟨_, found'⟩ := episodes.symm.episode found
      exact (inner id member _ found').2
  obtain ⟨close, closes'⟩ := binds_closeSequence closed follow.speaks
    (follow.occurs (inner last (List.mem_of_getLast? isLast) _ last₀).2)
  have stop : SparesAt v k₂ m :=
    close.trans (.of_tightened ending ((repeats_sequence ids options).of_ok done uses).speaks)
  have listed {link : TemporalId} (among : link ∈ opened.2.2 ∨ link ∈ links ∨ link ∈ closing) :
      link ∈ e.constraints.toList := by
    rw [constraints, OrdSet.mem_ofList_iff, List.append_assoc, List.mem_append, List.mem_append]
    exact among
  refine ⟨fun a b within => ?_, ⟨first, isFirst, _, first₀, ?_⟩, last, isLast, _, last₀, ?_⟩
  · obtain ⟨f, g, found₁, found₁', link, among, binds⟩ := consecutive a b within
    obtain ⟨_, found₀⟩ := episodes.symm.episode found₁
    obtain ⟨_, found₀'⟩ := episodes.symm.episode found₁'
    exact ⟨_, _, found₀, found₀', link, listed (.inr (.inl among)), binds.spared rest.toGrows stop⟩
  · rw [isStart]
    refine (starts_openSequence opening speaks'
      (fun mode => (anchored.of_shared mode).1 first isFirst _ first₀) start
      (inner first (List.mem_of_head? isFirst) _ first₀).1).imp_right fun ⟨link, among, binds⟩ => ?_
    exact ⟨_, link, listed (.inl among), (binds.spared follows.toGrows follow).spared rest.toGrows stop⟩
  · cases mode : options.mode.getD .shared with
    | shared =>
      obtain ⟨_, rfl⟩ := openSequence_eq_ok_of_shared opening mode
      exact .inl (isFinish.trans ((anchored.of_shared mode).2 last isLast _ last₀)).symm
    | boundary =>
      obtain ⟨link, among, binds⟩ := closes' mode
      exact .inr ⟨_, link, listed (.inr (.inr among)), binds.tightened ending not_false not_false⟩

end Edit

namespace Composing

variable {composing : Composing}

theorem Lasts.le (lasts : composing.Lasts n v t) (whole : n.WellFormed) {child : EpisodeId}
    {f : Episode} (runs : composing.Runs n v child) (found : n.episode child = .ok f) :
    t f.start ≤ t f.finish := by
  obtain ⟨c, there, start, finish⟩ := (whole.episode found).duration
  obtain ⟨nonnegative, allowed, _⟩ := lasts runs found there
  rw [← start, ← finish]
  exact sub_nonneg.mp (Number.atMost_zero.mp (allowed.of_le nonnegative))

/-- If each episode of a list takes some time, and the next one does not start before
it ends, then all of them are between the start of the first and the end of the last
one. -/
theorem between_ends {ids : List EpisodeId}
    (lasts : ∀ id ∈ ids, ∀ f, n.episode id = .ok f → t f.start ≤ t f.finish)
    (consecutive : ∀ first second, [first, second] <:+: ids → ∃ f g, n.episode first = .ok f ∧
      n.episode second = .ok g ∧ t f.finish ≤ t g.start) :
    ∀ id ∈ ids, ∀ f, n.episode id = .ok f →
      (∀ first ∈ ids.head?, ∀ g, n.episode first = .ok g → t g.start ≤ t f.start) ∧
      ∀ last ∈ ids.getLast?, ∀ g, n.episode last = .ok g → t f.finish ≤ t g.finish := by
  induction ids with
  | nil => nofun
  | cons first rest ih =>
    cases rest with
    | nil =>
      intro id member f found
      obtain rfl := List.mem_singleton.mp member
      constructor <;> rintro _ same g found' <;> obtain rfl := Option.some.inj same <;>
        obtain rfl := Except.ok.inj (found.symm.trans found') <;> exact le_refl _
    | cons second rest =>
      obtain ⟨e, f, found₁, found₂, next⟩ :=
        consecutive first second (List.prefix_append [first, second] rest).isInfix
      have later := ih (fun id member => lasts id (List.mem_cons_of_mem first member))
        fun a b within => consecutive a b (within.trans (List.suffix_cons first _).isInfix)
      have here := lasts first List.mem_cons_self e found₁
      have there := lasts second (List.mem_cons_of_mem _ List.mem_cons_self) f found₂
      intro id member g found
      rcases List.mem_cons.mp member with rfl | member
      · obtain rfl := Except.ok.inj (found₁.symm.trans found)
        constructor
        · rintro _ same g found'
          obtain rfl := Option.some.inj same
          obtain rfl := Except.ok.inj (found₁.symm.trans found')
          exact le_refl _
        · intro last isLast g found'
          rw [List.getLast?_cons_cons] at isLast
          exact (next.trans there).trans ((later second List.mem_cons_self f found₂).2 last isLast g found')
      · obtain ⟨opening, closing⟩ := later id member g found
        constructor
        · rintro _ same h found'
          obtain rfl := Option.some.inj same
          obtain rfl := Except.ok.inj (found₁.symm.trans found')
          exact (here.trans next).trans (opening second rfl f found₂)
        · intro last isLast
          rw [List.getLast?_cons_cons] at isLast
          exact closing last isLast

theorem allow_gap {options : CompositionOptions} {d : ℝ}
    (allowed : (Bounds.precedence options.gap).Allow d) :
    0 ≤ d ∧ (options.noWait.getD false = true → d = 0) := by
  obtain ⟨lower, upper⟩ := Bounds.allow_precedence.mp allowed
  refine ⟨lower, fun tight => le_antisymm ?_ lower⟩
  rw [CompositionOptions.gap, if_pos tight] at upper
  exact Number.atLeast_zero.mp upper

/-- Composites contain their children in time. If a schedule meets the links of a
composite that apply and the durations of the children, none of which may be
negative, and if all events involved occur, then no child that runs starts before
the composite does, none ends after it unless it ends the execution, and the
children of a sequence follow each other, at once if there is no gap. This takes
ends that are anchored. -/
theorem contains_children (reachable : n.Reachable ∨ ∃ p : Program, p.Reachable .free ∧ p.network = n)
    (uses : n.Uses (Literal.Within V)) (done : composing.call.run n = .ok id m)
    (found : m.episode id = .ok e) (anchored : composing.Anchored n v)
    (enacted : composing.Enacted n m v e) (lasts : composing.Lasts n v t)
    (meets : m.Meets e.constraints v t) : composing.Contains n v t e := by
  have whole : n.WellFormed := by
    rcases reachable with built | ⟨p, built, rfl⟩
    · exact built.wellFormed
    · exact built.wellFormed
  cases composing with
  | sequence ids options =>
    obtain ⟨consecutive, ⟨first, isFirst, f, found₁, opens⟩, last, isLast, g, found₂, closes⟩ :=
      Edit.precedes_sequence done found uses whole anchored enacted
    have inside := between_ends (t := t) (fun id member f found => lasts.le whole member found)
      fun a b within => by
        obtain ⟨f, g, there, there', link, member, binds⟩ := consecutive a b within
        exact ⟨f, g, there, there',
          sub_nonneg.mp (allow_gap (binds.allow member meets)).1⟩
    refine ⟨fun runs there => ?_, fun runs there _ => ?_, ?_⟩
    · exact (opens.le meets).trans ((inside _ runs _ there).1 first isFirst f found₁)
    · exact ((inside _ runs _ there).2 last isLast g found₂).trans (closes.le meets)
    · rintro _ _ a b f' g' ⟨rfl, rfl⟩ within there there'
      obtain ⟨f, g, found₁, found₂, link, member, binds⟩ := consecutive a b within
      obtain rfl := Except.ok.inj (found₁.symm.trans there)
      obtain rfl := Except.ok.inj (found₂.symm.trans there')
      obtain ⟨later, tight⟩ := allow_gap (binds.allow member meets)
      exact ⟨sub_nonneg.mp later, fun none => (sub_eq_zero.mp (tight none)).symm⟩
  | parallel ids options =>
    have goes := Edit.isTerminal_of_checkNotTerminal (Edit.parallel_eq_ok done).1
    have precedes {child f} (runs : child ∈ ids) (there : n.episode child = .ok f) :
        m.Precedes v e.constraints e.start f.start ∧ m.Precedes v e.constraints f.finish e.finish := by
      have among : (Composing.parallel ids options).Runs n v child := runs
      have finish := enacted.finish among (goes child runs)
      obtain ⟨f', found', links⟩ := Edit.precedes_parallel done found uses ⟨enacted.start, finish⟩
        child runs
      obtain rfl := Except.ok.inj (found'.symm.trans there)
      obtain ⟨opens, closes⟩ := enacted.inner among there
      exact links opens closes
    exact ⟨fun runs there => (precedes runs there).1.le meets,
      fun runs there _ => (precedes runs there).2.le meets, nofun⟩
  | branch choice ids options =>
    have precedes {child : EpisodeId} (runs : (Composing.branch choice ids options).Runs n v child) :=
      Edit.precedes_branch done found uses whole anchored enacted runs
    refine ⟨fun runs there => ?_, fun runs there goes => ?_, nofun⟩ <;>
      obtain ⟨f, found, opening, closing⟩ := precedes runs <;>
      obtain rfl := Except.ok.inj (found.symm.trans there)
    · exact opening.le meets
    · exact (closing goes).le meets

/-! ## Two episodes and an event -/

/-- If no event has a condition, all that are involved occur. -/
theorem enacted_of_unconditional (whole : n.WellFormed) (whole' : m.WellFormed)
    (grown : ∀ element, n.Has element → m.Has element) (found : m.episode id = .ok e)
    (unconditional : m.events.toList.map (·.guard.support.toList.map (·.toList)) =
      List.replicate m.events.size [[]]) : composing.Enacted n m v e := by
  have occurs {event : EventId} (there : m.Has (.event event)) : m.Occurs v (.event event) := by
    obtain ⟨g, guarded⟩ := there
    obtain ⟨f, found, rfl⟩ := guard_event.mp guarded
    have among := List.mem_map_of_mem (f := fun e : Event => e.guard.support.toList.map (·.toList))
      (Array.mem_toList_iff.mpr (Array.mem_of_getElem? found))
    rw [unconditional] at among
    have shape : (m.support (.event event)).toOption.map (fun s => s.toList.map (·.toList)) =
        some [[]] := by
      rw [support, guarded]
      exact congrArg some (List.eq_of_mem_replicate among)
    exact occurs_of_literals shape fun _ there => absurd there List.not_mem_nil
  have fits := whole'.episode found
  refine ⟨occurs (WellFormed.has_event fits.start), fun _ there => ?_,
    fun _ _ => occurs (WellFormed.has_event fits.finish)⟩
  have fits' := whole.episode there
  exact ⟨occurs (grown _ (WellFormed.has_event fits'.start)),
    occurs (grown _ (WellFormed.has_event fits'.finish))⟩

/-- Two episodes that may take any time, and an event. -/
@[irreducible] def pieces : Network :=
  (Network.empty .zero).afterCalls [
    ⟨_, .addEpisode {}⟩, ⟨_, .addEpisode {}⟩, ⟨_, .addEventAs (.fresh "Event" 7)⟩]

/-- One episode at once after the other, with events of its own at the ends. -/
def joined : Composing := .sequence [⟨0⟩, ⟨1⟩] { mode := some .boundary, noWait := some true }

/-- The first episode alone, in a sequence that is to start with the event. -/
def loose : Composing := .sequence [⟨0⟩] { start := some ⟨4⟩ }

theorem reachable_pieces : pieces.Reachable := by
  unfold pieces
  exact (Reachable.empty _).afterCalls _

theorem uses_pieces : pieces.Uses (Literal.Within .binary) := by
  have none : pieces.events.toList.filterMap (·.choice) = [] := by decide +kernel
  unfold pieces at none ⊢
  refine uses_afterCalls (fun call member => ?_) fun found => ?_
  · simp only [List.mem_cons, List.not_mem_nil, or_false] at member
    rcases member with rfl | rfl | rfl <;> trivial
  · have among := mem_choices found
    rw [none] at among
    cases among

/-- The events and the bounds of the constraints. -/
def spans (n : Network) : List (EventId × EventId × Bounds) :=
  n.temporals.toList.map fun c => (c.start, c.finish, c.bounds)

/-- The schedule keeps to all bounds. -/
def Keeps (t : Schedule) (spans : List (EventId × EventId × Bounds)) : Prop :=
  ∀ span ∈ spans, span.2.2.Allow (t span.2.1 - t span.1)

theorem Keeps.allow {c : TemporalConstraint} {id : TemporalId} (keeps : Keeps t (spans n))
    (found : n.temporal id = .ok c) : c.bounds.Allow (t c.finish - t c.start) :=
  keeps _ (List.mem_map_of_mem (f := fun c : TemporalConstraint => (c.start, c.finish, c.bounds))
    (Array.mem_toList_iff.mpr (Array.mem_of_getElem? (lookup_eq_ok_iff.mp found))))

theorem lasts_pieces (composing : Composing) (keeps : Keeps t (spans pieces)) :
    composing.Lasts pieces v t := by
  have least : (pieces.temporals.toList.all fun c => Number.zero.le c.bounds.lower) = true := by
    decide +kernel
  exact fun {_ _ _} _ _ found => ⟨List.all_eq_true.mp least _ (Array.mem_toList_iff.mpr
    (Array.mem_of_getElem? (lookup_eq_ok_iff.mp found))), keeps.allow found⟩

/-- All events occur in whatever a sequence makes of the pieces. -/
theorem enacted_pieces {ids : List EpisodeId} {options : CompositionOptions}
    (done : Edit.sequence ids options pieces = .ok id m) (found : m.episode id = .ok e)
    (unconditional : m.events.toList.map (·.guard.support.toList.map (·.toList)) =
      List.replicate m.events.size [[]]) :
    (Composing.sequence ids options).Enacted pieces m v e := by
  have grown : Tightened (fun _ => True) (fun _ => True) pieces m :=
    Edit.tightened_sequence done (fun _ _ _ _ => .inl trivial) fun _ _ _ => trivial
  have after : (NetworkCall.sequence ids options).run.after pieces = m := Attempt.after_of_ok done
  have built : m.Reachable := after ▸ reachable_pieces.call (.sequence ids options)
  exact enacted_of_unconditional reachable_pieces.wellFormed built.wellFormed (fun _ => grown.has)
    found unconditional

/-- The episodes take one unit of time each. -/
noncomputable def inTurn : Schedule := fun event =>
  ([0, 1, 1, 2, 0, 0, 2] : List ℝ).getD event.index 0

theorem contains_children_joined : pieces.Reachable ∧ pieces.Uses (Literal.Within .binary) ∧
    ∃ id m e, joined.call.run pieces = .ok id m ∧ m.episode id = .ok e ∧
      joined.Anchored pieces .first ∧ joined.Enacted pieces m .first e ∧
      joined.Lasts pieces .first inTurn ∧ m.Meets e.constraints .first inTurn ∧
      joined.Contains pieces .first inTurn e := by
  have done : Edit.sequence [⟨0⟩, ⟨1⟩] { mode := some .boundary, noWait := some true } pieces =
      .ok ⟨2⟩ (joined.call.run.after pieces) := Attempt.eq_ok_of_result? (by decide +kernel)
  have made : ((joined.call.run.after pieces).episode ⟨2⟩).toOption.isSome = true := by
    decide +kernel
  obtain ⟨e, found⟩ := Option.isSome_iff_exists.mp made
  have found := toOption_eq_some_iff.mp found
  have here : spans pieces =
      [(⟨0⟩, ⟨1⟩, .precedence .infinity), (⟨2⟩, ⟨3⟩, .precedence .infinity)] := by decide +kernel
  have there : spans (joined.call.run.after pieces) =
      [(⟨0⟩, ⟨1⟩, .precedence .infinity), (⟨2⟩, ⟨3⟩, .precedence .infinity),
        (⟨5⟩, ⟨0⟩, .precedence .zero), (⟨1⟩, ⟨2⟩, .precedence .zero),
        (⟨3⟩, ⟨6⟩, .precedence .zero), (⟨5⟩, ⟨6⟩, .precedence .infinity)] := by decide +kernel
  have keeps : Keeps inTurn (spans pieces) := by
    simp [Keeps, here, inTurn, Bounds.allow_precedence, Number.atLeast_infinity]
  have keeps' : Keeps inTurn (spans (joined.call.run.after pieces)) := by
    simp [Keeps, there, inTurn, Bounds.allow_precedence, Number.atLeast_infinity,
      Number.atLeast_zero]
  have enacted : joined.Enacted pieces (joined.call.run.after pieces) .first e :=
    enacted_pieces done found (by decide +kernel)
  have lasts : joined.Lasts pieces .first inTurn := lasts_pieces joined keeps
  have anchored : joined.Anchored pieces .first := nofun
  have meets : (joined.call.run.after pieces).Meets e.constraints .first inTurn :=
    fun _ _ _ found _ _ => keeps'.allow found
  exact ⟨reachable_pieces, uses_pieces, ⟨2⟩, _, e, done, found, anchored, enacted, lasts, meets,
    contains_children (.inl reachable_pieces) uses_pieces done found anchored enacted lasts meets⟩

/-- The event comes when the first episode has started. -/
noncomputable def belated : Schedule := fun event =>
  ([0, 2, 0, 0, 1] : List ℝ).getD event.index 0

/-- A sequence that starts with an event of its own but shares those of its episodes may
start after the first one of them has, although the schedule meets all constraints. -/
theorem starts_before_composite : pieces.Reachable ∧ pieces.Uses (Literal.Within .binary) ∧
    ∃ id m e, loose.call.run pieces = .ok id m ∧ m.episode id = .ok e ∧
      loose.Enacted pieces m .first e ∧ loose.Lasts pieces .first belated ∧
      (∀ id c, m.temporal id = .ok c → c.Met .first belated) ∧
      ∃ f, pieces.episode ⟨0⟩ = .ok f ∧ loose.Runs pieces .first ⟨0⟩ ∧
        belated f.start < belated e.start := by
  have done : Edit.sequence [⟨0⟩] { start := some ⟨4⟩ } pieces =
      .ok ⟨2⟩ (loose.call.run.after pieces) := Attempt.eq_ok_of_result? (by decide +kernel)
  have made : ((loose.call.run.after pieces).episode ⟨2⟩).toOption.map (·.start) = some ⟨4⟩ := by
    decide +kernel
  have before : (pieces.episode ⟨0⟩).toOption.map (·.start) = some ⟨0⟩ := by decide +kernel
  obtain ⟨e, found, start⟩ := Option.map_eq_some_iff.mp made
  obtain ⟨f, found', start'⟩ := Option.map_eq_some_iff.mp before
  have found := toOption_eq_some_iff.mp found
  have here : spans pieces =
      [(⟨0⟩, ⟨1⟩, .precedence .infinity), (⟨2⟩, ⟨3⟩, .precedence .infinity)] := by decide +kernel
  have there : spans (loose.call.run.after pieces) =
      [(⟨0⟩, ⟨1⟩, .precedence .infinity), (⟨2⟩, ⟨3⟩, .precedence .infinity),
        (⟨4⟩, ⟨1⟩, .precedence .infinity)] := by decide +kernel
  have keeps : Keeps belated (spans pieces) := by
    simp [Keeps, here, belated, Bounds.allow_precedence, Number.atLeast_infinity]
  have keeps' : Keeps belated (spans (loose.call.run.after pieces)) := by
    simp [Keeps, there, belated, Bounds.allow_precedence, Number.atLeast_infinity]
  refine ⟨reachable_pieces, uses_pieces, ⟨2⟩, _, e, done, found,
    enacted_pieces done found (by decide +kernel), lasts_pieces loose keeps,
    fun _ _ found _ _ => keeps'.allow found, f, toOption_eq_some_iff.mp found',
    List.mem_singleton_self _, ?_⟩
  rw [start, start']
  simp [belated]

end Composing

end PlanNetwork
