/-
# The course that a network takes

Whatever is done to a network comes down to moves of a few kinds. Serial numbers
are given out, guards and the journal are written, bounds change, elements come in
behind the others, and of an episode that is there all may change but its identity,
its events, what it is composed of and whether it ends the execution. So what an
episode says about those inside it can be relied on from the time on when it was
put there.

A move says what comes in: which serial number it bears, which id, and that an
episode has been composed as it should be. It does not say when elements exist.
Some things are up to callers, and nothing checks them: the identity of an event,
the id of a choice, and which constraints they give to an episode. A licence says
what they may do of these.
-/

import PlanNetwork.Proofs.Network.Upkeep

namespace PlanNetwork

open Network

variable {n m k : Network} {id : EpisodeId} {e e' : Episode}

/-- What callers may do that nothing checks. -/
structure Licence where
  /-- Have an event with the identity. -/
  identity : Identity → Prop
  /-- Have a choice as specified. -/
  choice : ChoiceSpec → Prop
  /-- Give an episode a constraint. -/
  attach : EpisodeId → TemporalId → Prop

/-- Callers may do anything. -/
def Licence.full : Licence := ⟨fun _ => True, fun _ => True, fun _ _ => True⟩

/-- Two episodes agree in what never changes about an episode. -/
structure Episode.Resembles (e e' : Episode) : Prop where
  /-- They have one identity. -/
  identity : e'.identity = e.identity
  /-- They start together. -/
  start : e'.start = e.start
  /-- They end together. -/
  finish : e'.finish = e.finish
  /-- They are composed of the same episodes. -/
  composition : e'.composition = e.composition
  /-- Both end the execution, or neither does. -/
  terminal : e'.terminal = e.terminal

theorem Episode.Resembles.refl (e : Episode) : e.Resembles e := ⟨rfl, rfl, rfl, rfl, rfl⟩

theorem Episode.Resembles.trans {e'' : Episode} (first : e.Resembles e')
    (second : e'.Resembles e'') : e.Resembles e'' :=
  ⟨second.identity.trans first.identity, second.start.trans first.start,
    second.finish.trans first.finish, second.composition.trans first.composition,
    second.terminal.trans first.terminal⟩

namespace Network

/-! ## What episodes are composed of -/

/-- The episode is there, and ends the execution or does not. -/
def Flagged (n : Network) (id : EpisodeId) (terminal : Bool) : Prop :=
  ∃ e, n.episode id = .ok e ∧ e.terminal = terminal

/-- Whether the episodes of a composition may end the execution, and whether it ends
the execution itself: a sequence may end with an episode that does, and then it does
so as well; side by side no episode may; a branching has a branch for each value, and
ends the execution if all of them do. -/
def Disciplined (n : Network) (composition : Composition) (terminal : Bool) : Prop :=
  match composition with
  | .primitive => True
  | .sequence ids => ∃ front last, ids = front ++ [last] ∧
      (∀ id ∈ front, n.Flagged id false) ∧ n.Flagged last terminal
  | .parallel ids => terminal = false ∧ ∀ id ∈ ids, n.Flagged id false
  | .branching choice ids => ∃ data, n.choice choice = .ok data ∧
      ids.length = data.subject.arity ∧ (∀ id ∈ ids, ∃ flag, n.Flagged id flag) ∧
      (terminal = true ↔ ∀ id ∈ ids, n.Flagged id true)

/-- The event is at an end of the episode, or of one right inside it. -/
def Borders (n : Network) (e : Episode) (event : EventId) : Prop :=
  event = e.start ∨ event = e.finish ∨
    ∃ child ∈ e.composition.episodes, ∃ f, n.episode child = .ok f ∧
      (event = f.start ∨ event = f.finish)

/-- The constraint is between events at the ends of the episode and of those right
inside it. -/
def Encloses (n : Network) (e : Episode) (id : TemporalId) : Prop :=
  ∃ c, n.temporal id = .ok c ∧ n.Borders e c.start ∧ n.Borders e c.finish

/-- The episode is composed as it should be. -/
structure Composed (n : Network) (e : Episode) : Prop where
  /-- Its constraints are inside it. -/
  links : ∀ c ∈ e.constraints.toList, n.Encloses e c
  /-- It ends the execution if what is inside it makes it so. -/
  flags : n.Disciplined e.composition e.terminal

/-- What episodes and constraints are made of is what it was. -/
structure Stays (n m : Network) : Prop extends Covers n m where
  /-- No episode has become another one. -/
  episode : ∀ {id e}, n.episode id = .ok e → ∃ e', m.episode id = .ok e' ∧ e.Resembles e'

namespace Stays

theorem refl (n : Network) : Stays n n := ⟨.refl n, fun {_ e} found => ⟨e, found, .refl e⟩⟩

theorem trans (first : Stays n k) (second : Stays k m) : Stays n m := by
  refine ⟨first.toCovers.trans second.toCovers, fun found => ?_⟩
  obtain ⟨_, found, same⟩ := first.episode found
  obtain ⟨e', found, again⟩ := second.episode found
  exact ⟨e', found, same.trans again⟩

/-- The network covers another with the same episodes. -/
theorem of_episodes (covers : Covers n m)
    (episodes : ∀ {id e}, n.episode id = .ok e → m.episode id = .ok e) : Stays n m :=
  ⟨covers, fun {_ e} found => ⟨e, episodes found, .refl e⟩⟩

theorem of_bare (same : m.bare = n.bare) : Stays n m := by
  refine ⟨.of_bare same, fun found => ?_⟩
  obtain ⟨g, found⟩ := episode_of_bare same found
  exact ⟨_, found, rfl, rfl, rfl, rfl, rfl⟩

end Stays

theorem Flagged.stays {flag : Bool} (h : n.Flagged id flag) (stays : Stays n m) :
    m.Flagged id flag := by
  obtain ⟨e, found, rfl⟩ := h
  obtain ⟨e', found, same⟩ := stays.episode found
  exact ⟨e', found, same.terminal⟩

/-- An episode does not both end the execution and not end it. -/
theorem Flagged.eq {flag flag' : Bool} (h : n.Flagged id flag) (h' : n.Flagged id flag') :
    flag = flag' := by
  obtain ⟨e, found, rfl⟩ := h
  obtain ⟨e', found', rfl⟩ := h'
  rw [Except.ok.inj (found.symm.trans found')]

/-- The flag that an episode had is the one that it has. -/
theorem forall_flagged_iff_of_stays {ids : List EpisodeId} (stays : Stays n m)
    (there : ∀ id ∈ ids, ∃ flag, n.Flagged id flag) :
    (∀ id ∈ ids, n.Flagged id true) ↔ ∀ id ∈ ids, m.Flagged id true := by
  refine ⟨fun ends id member => (ends id member).stays stays, fun ends id member => ?_⟩
  obtain ⟨flag, flagged⟩ := there id member
  exact (flagged.stays stays).eq (ends id member) ▸ flagged

theorem Disciplined.stays {composition : Composition} {terminal : Bool}
    (h : n.Disciplined composition terminal) (stays : Stays n m) :
    m.Disciplined composition terminal := by
  cases composition with
  | primitive => trivial
  | sequence ids =>
    obtain ⟨front, last, split, before, behind⟩ := h
    exact ⟨front, last, split, fun id member => (before id member).stays stays,
      behind.stays stays⟩
  | parallel ids => exact ⟨h.1, fun id member => (h.2 id member).stays stays⟩
  | branching choice ids =>
    obtain ⟨data, found, length, there, all⟩ := h
    exact ⟨data, stays.choice found, length,
      fun id member => (there id member).imp fun _ flagged => flagged.stays stays,
      all.trans (forall_flagged_iff_of_stays stays there)⟩

theorem Borders.stays {event : EventId} (h : n.Borders e event) (stays : Stays n m) :
    m.Borders e event := by
  refine h.imp_right (.imp_right ?_)
  rintro ⟨child, inside, f, found, same⟩
  obtain ⟨f', found, resembles⟩ := stays.episode found
  exact ⟨child, inside, f', found, by rwa [resembles.start, resembles.finish]⟩

theorem Borders.resembles {event : EventId} (h : n.Borders e event) (same : e.Resembles e') :
    n.Borders e' event := by
  rwa [Borders, same.start, same.finish, same.composition]

theorem Encloses.stays {c : TemporalId} (h : n.Encloses e c) (stays : Stays n m) :
    m.Encloses e c := by
  obtain ⟨c, found, starts, finishes⟩ := h
  obtain ⟨c', found, start, finish⟩ := stays.temporal found
  exact ⟨c', found, start ▸ starts.stays stays, finish ▸ finishes.stays stays⟩

theorem Encloses.resembles {c : TemporalId} (h : n.Encloses e c) (same : e.Resembles e') :
    n.Encloses e' c := by
  obtain ⟨c, found, starts, finishes⟩ := h
  exact ⟨c, found, starts.resembles same, finishes.resembles same⟩

/-! ## Moves -/

variable {L : Licence}

/-- What can be done to a network at once. -/
inductive Move (L : Licence) (n : Network) : Network → Prop where
  /-- The journal is written. -/
  | journal (j : Option Journal) : Move L n { n with journal := j }
  /-- Serial numbers are given out. -/
  | count {later : Nat} (more : n.nextSerial ≤ later) : Move L n (n.withSerial later)
  /-- An element gets another guard. -/
  | guard (element : Guarded) (g : Guard) : Move L n (n.setGuard element g)
  /-- An event that a caller has identified comes in. -/
  | eventAs {identity : Identity} (may : L.identity identity) :
      Move L n { n with events := n.events.push ⟨identity, .always, none⟩ }
  /-- An event comes in. -/
  | event : Move L n
      { n.withSerial (n.nextSerial + 1) with
        events := n.events.push ⟨.fresh "Event" n.nextSerial, .always, none⟩ }
  /-- A choice comes in. -/
  | choice {spec : ChoiceSpec} {kind : Controllability} {identity : Identity}
      (accepted : spec.validate n.tolerance = .ok kind) (may : L.choice spec)
      (identified : identity = (Identity.fresh "Choice" n.nextSerial).override spec.id spec.name) :
      Move L n
        { n.withSerial (n.nextSerial + 1) with
          events := n.events.push ⟨identity, .always, some (spec.toChoice identity kind)⟩ }
  /-- A state variable comes in. -/
  | quantity {v : StateVariable} (serial : v.identity.serial = n.nextSerial) :
      Move L n { n.withSerial (n.nextSerial + 1) with quantities := n.quantities.push v }
  /-- A temporal constraint comes in. -/
  | temporal (start finish : EventId) (bounds : Bounds) (s : Support) :
      Move L n (Edit.withLink n start finish bounds s)
  /-- A state constraint comes in. -/
  | state {c : StateConstraint} (serial : c.identity.serial = n.nextSerial) :
      Move L n { n.withSerial (n.nextSerial + 1) with states := n.states.push c }
  /-- A chance constraint comes in. -/
  | chance {c : ChanceConstraint} (serial : c.identity.serial = n.nextSerial) :
      Move L n { n.withSerial (n.nextSerial + 1) with chances := n.chances.push c }
  /-- An episode comes in, with its duration. -/
  | episode {e : Episode} (bounds : Bounds) (s : Support)
      (serial : e.identity.serial = n.nextSerial) (composed : n.Composed e) :
      Move L n
        { Edit.withLink (n.withSerial (n.nextSerial + 1)) e.start e.finish bounds s with
          episodes := n.episodes.push e }
  /-- Episodes change, but what is inside them does not. -/
  | revise {episodes : Array Episode} (size : episodes.size = n.episodes.size)
      (revised : ∀ {id e'}, lookup episodes id = .ok e' → ∃ e, n.episode id = .ok e ∧
        e.Resembles e' ∧ ∀ c ∈ e'.constraints.toList, c ∈ e.constraints.toList ∨ L.attach id c) :
      Move L n { n with episodes }
  /-- A temporal constraint gets other bounds. -/
  | bounds (id : TemporalId) (change : Bounds → Bounds) :
      Move L n (n.modifyTemporal id fun c => { c with bounds := change c.bounds })

/-- Moves in turn. -/
abbrev Course (L : Licence) : Network → Network → Prop := Relation.ReflTransGen (Move L)

/-- New bounds do not change which events a constraint is between. -/
theorem covers_bounds (n : Network) (id : TemporalId) (change : Bounds → Bounds) :
    Covers n (n.modifyTemporal id fun c => { c with bounds := change c.bounds }) := by
  refine ⟨Nat.le_refl _, Nat.le_refl _, Nat.le_of_eq (Array.size_modify ..).symm, Nat.le_refl _,
    Nat.le_refl _, Nat.le_refl _, fun {other c} found => ?_, fun found => found⟩
  by_cases same : id = other
  · subst same
    exact ⟨_, lookup_eq_ok_iff.mpr (getElem?_modify_self _ (lookup_eq_ok_iff.mp found)), rfl, rfl⟩
  · exact ⟨c, (lookup_modify_of_ne same).trans found, rfl, rfl⟩

theorem stays_withLink (n : Network) (start finish : EventId) (bounds : Bounds) (s : Support) :
    Stays n (Edit.withLink n start finish bounds s) :=
  .of_episodes ((Covers.pushTemporal n _).trans (.withSerial _ (n.nextSerial + 1))) id

theorem Move.stays (move : Move L n m) : Stays n m := by
  have later : Covers n (n.withSerial (n.nextSerial + 1)) := .withSerial n _
  cases move with
  | journal j => exact .of_bare rfl
  | count => exact .of_episodes (.withSerial n _) id
  | guard => exact .of_bare bare_setGuard
  | eventAs => exact .of_episodes (.pushEvent n _) id
  | event | choice =>
    exact .of_episodes (later.trans (.pushEvent (n.withSerial (n.nextSerial + 1)) _)) id
  | temporal start finish bounds s => exact stays_withLink n start finish bounds s
  | quantity | state | chance =>
    refine .of_episodes (later.trans ?_) id
    apply Covers.of_same <;> first | rfl | simp [withSerial]
  | @episode e bounds s serial composed =>
    have lasts := stays_withLink (n.withSerial (n.nextSerial + 1)) e.start e.finish bounds s
    refine ((Stays.of_episodes later id).trans lasts).trans (.of_episodes ?_ lookup_push)
    apply Covers.of_same <;> first | rfl | simp [withSerial, Edit.withLink]
  | revise size revised =>
    refine ⟨?_, fun {id e} found => ?_⟩
    · apply Covers.of_same <;> first | rfl | simp [size]
    · obtain ⟨e', found'⟩ := exists_episode
        (n := { n with episodes := _ }) (size ▸ index_lt_size found)
      obtain ⟨_, there, same, _⟩ := revised found'
      obtain rfl := Except.ok.inj (found.symm.trans there)
      exact ⟨e', found', same⟩
  | bounds id change => exact .of_episodes (covers_bounds n id change) (fun found => found)

/-- What can be said of an episode after a move: it has been there before, with the
constraints that it has but for those that callers gave to it, or it has been composed
of what was there before. -/
theorem Move.origin (move : Move L n m) (found : m.episode id = .ok e') :
    (∃ e, n.episode id = .ok e ∧ e.Resembles e' ∧
      ∀ c ∈ e'.constraints.toList, c ∈ e.constraints.toList ∨ L.attach id c) ∨
    n.Composed e' := by
  have old {e : Episode} (found : n.episode id = .ok e) : (∃ f, n.episode id = .ok f ∧
      f.Resembles e ∧ ∀ c ∈ e.constraints.toList, c ∈ f.constraints.toList ∨ L.attach id c) ∨
      n.Composed e :=
    .inl ⟨e, found, .refl e, fun _ => .inl⟩
  cases move with
  | guard element g =>
    have same : n.bare = (n.setGuard element g).bare := bare_setGuard.symm
    obtain ⟨g, there⟩ := episode_of_bare same found
    exact .inl ⟨_, there, ⟨rfl, rfl, rfl, rfl, rfl⟩, fun _ => .inl⟩
  | episode bounds s serial composed =>
    rw [Network.episode, lookup_eq_ok_iff, Array.getElem?_push] at found
    split at found
    next => exact .inr (Option.some.inj found ▸ composed)
    next => exact old (lookup_eq_ok_iff.mpr found)
  | revise size revised => exact .inl (revised found)
  | _ => exact old found

/-- How an event comes in. -/
inductive Arrives (L : Licence) (n m : Network) (f : Event) : Prop where
  /-- A caller has identified it. -/
  | identified (may : L.identity f.identity) (plain : f.choice = none)
  /-- It gets the next serial number. -/
  | numbered (given : n.nextSerial < m.nextSerial)
      (identity : f.identity = .fresh "Event" n.nextSerial) (plain : f.choice = none)
  /-- It is the event of a choice, and gets the next serial number. -/
  | choice {spec : ChoiceSpec} {kind : Controllability} (given : n.nextSerial < m.nextSerial)
      (accepted : spec.validate n.tolerance = .ok kind) (may : L.choice spec)
      (identity : f.identity = (Identity.fresh "Choice" n.nextSerial).override spec.id spec.name)
      (carries : f.choice = some (spec.toChoice f.identity kind))

/-- What can be said of an event after a move: it has been there before, or it has come
in behind the others. -/
theorem Move.event_origin {event : EventId} {f : Event} (move : Move L n m)
    (found : m.event event = .ok f) :
    (∃ f', n.event event = .ok f' ∧ f.identity = f'.identity ∧ f.choice = f'.choice) ∨
      (event.index = n.events.size ∧ n.Arrives L m f) := by
  -- an event is an old one, or it is the one behind them
  have split {k : Network} {new : Event} (events : k.events = n.events.push new)
      (found : k.event event = .ok f) :
      n.event event = .ok f ∨ event.index = n.events.size ∧ f = new := by
    rw [Network.event, events, lookup_eq_ok_iff, Array.getElem?_push] at found
    split at found
    next last => exact .inr ⟨last, (Option.some.inj found).symm⟩
    next => exact .inl (lookup_eq_ok_iff.mpr found)
  have old (found : n.event event = .ok f) :
      ∃ f', n.event event = .ok f' ∧ f.identity = f'.identity ∧ f.choice = f'.choice :=
    ⟨f, found, rfl, rfl⟩
  cases move with
  | guard element g =>
    have same : n.bare = (n.setGuard element g).bare := bare_setGuard.symm
    obtain ⟨g, there⟩ := event_of_bare same found
    exact .inl ⟨_, there, rfl, rfl⟩
  | eventAs may =>
    rcases split rfl found with there | ⟨last, rfl⟩
    · exact .inl (old there)
    · exact .inr ⟨last, .identified may rfl⟩
  | event =>
    rcases split rfl found with there | ⟨last, rfl⟩
    · exact .inl (old there)
    · exact .inr ⟨last, .numbered (Nat.lt_succ_self _) rfl rfl⟩
  | choice accepted may identified =>
    rcases split rfl found with there | ⟨last, rfl⟩
    · exact .inl (old there)
    · exact .inr ⟨last, .choice (Nat.lt_succ_self _) accepted may identified rfl⟩
  | _ => exact .inl (old found)

/-- An event keeps its identity and its choice. -/
theorem Move.keeps_event {event : EventId} {f : Event} (move : Move L n m)
    (found : n.event event = .ok f) :
    ∃ f', m.event event = .ok f' ∧ f'.identity = f.identity ∧ f'.choice = f.choice := by
  have inside : event.index < m.events.size :=
    Nat.lt_of_lt_of_le (Array.getElem?_eq_some_iff.mp (lookup_eq_ok_iff.mp found)).1
      move.stays.events
  have there : m.event event = .ok m.events[event.index] :=
    lookup_eq_ok_iff.mpr (Array.getElem?_eq_getElem inside)
  rcases move.event_origin there with ⟨_, before, identity, choice⟩ | ⟨last, _⟩
  · obtain rfl := Except.ok.inj (found.symm.trans before)
    exact ⟨_, there, identity, choice⟩
  · exact (lookup_ne_ok last found).elim

theorem Course.keeps_event (course : Course L n m) {event : EventId} {f : Event}
    (found : n.event event = .ok f) :
    ∃ f', m.event event = .ok f' ∧ f'.identity = f.identity ∧ f'.choice = f.choice := by
  induction course with
  | refl => exact ⟨f, found, rfl, rfl⟩
  | tail _ move ih =>
    obtain ⟨_, found, identity, choice⟩ := ih
    obtain ⟨f', found, identity', choice'⟩ := move.keeps_event found
    exact ⟨f', found, identity'.trans identity, choice'.trans choice⟩

/-- Without choices from callers there are the choices that there were. -/
theorem Course.choice (course : Course L n m) (none : ∀ spec, ¬ L.choice spec) {event : EventId}
    {c : Choice} (found : m.choice event = .ok c) : n.choice event = .ok c := by
  induction course with
  | refl => exact found
  | tail _ move ih =>
    obtain ⟨f, there, carries⟩ := choice_eq_ok_iff.mp found
    rcases move.event_origin there with ⟨f', before, _, same⟩ | ⟨_, arrives⟩
    · exact ih (choice_eq_ok_iff.mpr ⟨f', before, same ▸ carries⟩)
    · cases arrives with
      | identified _ plain | numbered _ _ plain =>
        rw [plain] at carries
        cases carries
      | choice _ _ may => exact absurd may (none _)

theorem Course.stays (course : Course L n m) : Stays n m := by
  induction course with
  | refl => exact .refl n
  | tail _ move ih => exact ih.trans move.stays

end Network

open Network

namespace Edit

variable {α β : Type} {L : Licence}

/-! ## Operations -/

/-- Whatever the outcome, the operation is made of moves. -/
def Courses (L : Licence) (op : Edit α) (n : Network) : Prop := Course L n (op.after n)

theorem courses_of_unchanged {op : Edit α} (same : op.after n = n) : Courses L op n := by
  rw [Courses, same]

theorem courses_pure (a : α) : Courses L (pure a : Edit α) n := courses_of_unchanged rfl

theorem courses_throw (fault : Fault) : Courses L (throw fault : Edit α) n :=
  courses_of_unchanged rfl

theorem Courses.bind {op : Edit α} {next : α → Edit β} (first : Courses L op n)
    (rest : ∀ a m, op n = .ok a m → Courses L (next a) m) : Courses L (op >>= next) n :=
  Attempt.after_bind (R := Course L) Relation.ReflTransGen.trans first rest

theorem courses_read {view : Network → Except Fault α} {next : α → Edit β}
    (rest : ∀ a, view n = .ok a → Courses L (next a) n) :
    Courses L (Attempt.read view >>= next) n := by
  refine Courses.bind (courses_of_unchanged (Attempt.after_read view)) fun a m result => ?_
  obtain ⟨value, rfl⟩ := Attempt.read_eq_ok_iff.mp result
  exact rest a value

theorem courses_each {op : β → Edit Unit} (each : ∀ b n, Courses L (op b) n) (items : List β) :
    Courses L (Attempt.each op items) n := by
  induction items generalizing n with
  | nil => exact courses_pure ()
  | cons item rest ih => exact (each item n).bind fun _ _ _ => ih

theorem Courses.of_ok {op : Edit α} {a : α} (h : Courses L op n) (done : op n = .ok a m) :
    Course L n m :=
  Attempt.after_of_ok done ▸ h

/-- What is undone has given out serial numbers, and what is not undone has written the
journal besides. -/
theorem courses_atomically {op : Edit α}
    (refused : ∀ {fault k}, op n.checkpoint = .error fault k →
      Trail (fun _ => True) n.checkpoint k)
    (steps : ∀ k, k.bare = n.bare → Courses L op k) : Courses L (atomically op) n := by
  cases result : atomically op n with
  | ok a m =>
    rw [Courses, Attempt.after_of_ok result]
    rcases of_atomically_eq_ok result with plain | ⟨k, inner, rfl⟩
    · exact (steps n rfl).of_ok plain
    · exact ((Relation.ReflTransGen.single (Move.journal _)).trans
        ((steps n.checkpoint rfl).of_ok inner)).tail (.journal none)
  | error fault m =>
    by_cases nested : n.journal.isSome = true
    · rw [Courses, Attempt.after, atomically_of_nested nested]
      exact steps n rfl
    · rw [Courses, Attempt.after_of_error result]
      obtain ⟨later, more, rfl⟩ := atomically_eq_error (by simpa using nested)
        (fun _ => refused) result
      exact .single (.count more)

/-! ## Guards -/

theorem course_note (n : Network) (element : Guarded) (g : Guard) :
    Course L n (n.note element g) := by
  unfold note
  split
  · exact .refl
  · split
    · exact .single (.journal _)
    · exact .refl

theorem courses_changeGuard (element : Guarded) (change : Guard → Except Clash Guard) :
    Courses L (changeGuard element change) n :=
  courses_read fun g _ => Courses.bind (course_note n element g) fun _ _ _ =>
    courses_read fun changed _ => .single (.guard element changed)

theorem courses_refreshTemporal (id : TemporalId) : Courses L (refreshTemporal id) n :=
  courses_read fun _ _ => courses_read fun _ _ => courses_changeGuard _ _

/-! ## New elements -/

theorem courses_addEvent : Courses L addEvent n := .single .event

theorem courses_eventOrNew (given : Option EventId) : Courses L (eventOrNew given) n := by
  cases given with
  | some id => exact courses_pure id
  | none => exact courses_addEvent

theorem courses_addChoice {spec : ChoiceSpec} (may : L.choice spec) :
    Courses L (addChoice spec) n :=
  courses_read fun _ accepted => .single (.choice accepted may rfl)

theorem courses_addQuantity (name : String) (domain : StateDomain) :
    Courses L (addQuantity name domain) n :=
  courses_read fun _ _ => .single (.quantity (v := ⟨Identity.withName _ name, domain⟩) rfl)

theorem courses_linkUnder (start finish : EventId) (bounds : Bounds) (s : Support) :
    Courses L (linkUnder start finish bounds s) n := by
  refine courses_read fun guard written => ?_
  obtain ⟨_, rfl⟩ := Guard.set_eq_ok_iff.mp (refuseClash_eq_ok_iff.mp written)
  exact .single (.temporal start finish bounds s)

theorem courses_link (start finish : EventId) (bounds : Bounds) :
    Courses L (link start finish bounds) n :=
  courses_read fun _ _ => courses_linkUnder ..

theorem courses_addTemporal (start finish : EventId) (spec : DurationSpec) :
    Courses L (addTemporal start finish spec) n :=
  courses_read fun _ _ => courses_link ..

theorem courses_addDuration (start finish : EventId) (spec : DurationSpec) :
    Courses L (addDuration start finish spec) n :=
  courses_read fun _ _ => courses_read fun _ _ => courses_read fun _ _ =>
    courses_read fun _ _ => courses_linkUnder ..

theorem courses_addStateConstraint (scope : List VariableId) (condition : StateCondition) :
    Courses L (addStateConstraint scope condition) n :=
  .single (.state (c := ⟨_, .always, scope, condition⟩) rfl)

theorem courses_addAssignmentConstraint (scope : List VariableId) (values : List StateValue) :
    Courses L (addAssignmentConstraint scope values) n := by
  refine courses_read fun _ _ => ?_
  split
  · exact courses_throw _
  · exact courses_read fun _ _ => courses_addStateConstraint ..

theorem courses_addLinearConstraint (scope : List VariableId) (coefficients : List Number)
    (relation : Relation) (bound : Number) :
    Courses L (addLinearConstraint scope coefficients relation bound) n := by
  refine courses_read fun _ _ => ?_
  split
  · exact courses_throw _
  · exact courses_addStateConstraint ..

theorem courses_addChance (constraints : List ConstraintId) (risk : Number) :
    Courses L (addChance constraints risk) n := by
  unfold addChance
  split
  · exact courses_read fun _ _ => .single (.chance (c := ⟨_, risk, constraints⟩) rfl)
  · exact courses_throw _

/-! ## New episodes -/

/-- An operation that is refused before it has done anything. -/
theorem eq_of_read_eq_error {view : Network → Except Fault α} {next : α → Edit β} {fault : Fault}
    (rest : ∀ a, next a n = .error fault m → m = n)
    (refused : (Attempt.read view >>= next) n = .error fault m) : m = n := by
  rcases Attempt.bind_eq_error_iff.mp refused with stopped | ⟨a, _, read, later⟩
  · exact (Attempt.read_eq_error_iff.mp stopped).2
  · obtain ⟨_, rfl⟩ := Attempt.read_eq_ok_iff.mp read
    exact rest a later

theorem eq_of_addDuration_eq_error {start finish : EventId} {spec : DurationSpec} {fault : Fault}
    (refused : addDuration start finish spec n = .error fault m) : m = n := by
  refine eq_of_read_eq_error (fun _ => eq_of_read_eq_error fun _ => eq_of_read_eq_error fun _ =>
    eq_of_read_eq_error fun _ => eq_of_read_eq_error fun _ failed => ?_) refused
  rcases Attempt.bind_eq_error_iff.mp failed with ⟨⟨⟩⟩ | ⟨_, _, _, ⟨⟨⟩⟩⟩

theorem eq_of_addDraft_eq_error {draft : EpisodeDraft} {finishing : Episode → Episode}
    {fault : Fault} (refused : addDraft draft finishing n = .error fault m) : m = n := by
  refine eq_of_read_eq_error (fun _ => eq_of_read_eq_error fun _ failed => ?_) refused
  rcases Attempt.bind_eq_error_iff.mp failed with stopped | ⟨_, _, _, ⟨⟨⟩⟩⟩
  exact eq_of_addDuration_eq_error stopped

/-- An episode gets its identity first. If its duration cannot be had then this is all
that has happened. -/
theorem courses_addDraft {given name : Option String} {draft : Identity → EpisodeDraft}
    {finishing : Episode → Episode} (identified : ∀ i, (draft i).identity = i)
    (completes : ∀ e : Episode, e.Resembles (finishing e))
    (composed : ∀ i d, n.Composed (finishing ((draft i).toEpisode d))) :
    Courses L (allocateAs "Episode" given name >>= fun i => addDraft (draft i) finishing) n := by
  generalize called : (Identity.fresh "Episode" n.nextSerial).override given name = i
  set k := n.withSerial (n.nextSerial + 1) with counted
  have allocated : allocateAs "Episode" given name n = .ok i k :=
    allocateAs_eq_ok_iff.mpr ⟨called.symm, rfl⟩
  have step : Course L n k := .single (.count (Nat.le_succ _))
  have same : (allocateAs "Episode" given name >>= fun i => addDraft (draft i) finishing).after n =
      (addDraft (draft i) finishing).after k := by
    rw [Attempt.after, Attempt.bind_of_ok allocated, Attempt.after]
  rw [Courses, same]
  cases result : addDraft (draft i) finishing k with
  | ok id m =>
    obtain ⟨_, _, made⟩ := Attempt.read_bind_eq_ok_iff.mp result
    obtain ⟨_, _, made⟩ := Attempt.read_bind_eq_ok_iff.mp made
    obtain ⟨d, _, lasting, pushed⟩ := Attempt.bind_eq_ok_iff.mp made
    obtain ⟨bounds, _, _, s, _, _, _, _, _, rfl, rfl⟩ := addDuration_eq_ok_iff.mp lasting
    obtain ⟨_, rfl⟩ := pushEpisode_eq_ok_iff.mp pushed
    rw [Attempt.after_of_ok result]
    have same := completes ((draft i).toEpisode ⟨k.temporals.size⟩)
    have serial : (finishing ((draft i).toEpisode ⟨k.temporals.size⟩)).identity.serial =
        n.nextSerial := by
      rw [same.identity, EpisodeDraft.toEpisode, identified, ← called, Identity.override_serial]
      rfl
    have move := Move.episode (L := L) bounds s serial (composed i ⟨k.temporals.size⟩)
    rw [same.start, same.finish] at move
    exact .single move
  | error fault m =>
    rw [Attempt.after_of_error result, eq_of_addDraft_eq_error result]
    exact step

theorem courses_addEpisode (spec : EpisodeSpec) : Courses L (addEpisode spec) n := by
  refine courses_read fun _ _ => courses_read fun _ _ => courses_read fun _ _ =>
    courses_read fun _ _ => courses_read fun _ _ => courses_atomically (Follows.of_error ?_) ?_
  · refine (follows_eventOrNew _).bind fun _ _ _ => (follows_eventOrNew _).bind fun _ _ _ => ?_
    exact (follows_allocateAs ..).bind fun _ _ _ => follows_addDraft _ fun _ => rfl
  · refine fun k _ => (courses_eventOrNew _).bind fun start _ _ =>
      (courses_eventOrNew _).bind fun finish _ _ => courses_addDraft (fun _ => rfl)
        (fun _ => ⟨rfl, rfl, rfl, rfl, rfl⟩) fun _ _ => ⟨nofun, trivial⟩

/-! ## Changes -/

/-- An episode changes in what may change about it. -/
theorem course_modifyEpisode {id : EpisodeId} {change : Episode → Episode}
    (keeps : ∀ e : Episode, e.Resembles (change e))
    (constraints : ∀ e, ∀ c ∈ (change e).constraints.toList,
      c ∈ e.constraints.toList ∨ L.attach id c) : Course L n (n.modifyEpisode id change) := by
  refine .single (.revise (Array.size_modify ..) fun {other e'} found => ?_)
  rcases episode_modifyEpisode (n := n) found with ⟨rfl, e, there, rfl⟩ | ⟨_, there⟩
  · exact ⟨e, there, keeps e, constraints e⟩
  · exact ⟨e', there, .refl e', fun _ => .inl⟩

theorem course_foldl {step : Network → β → Network} (each : ∀ n b, Course L n (step n b))
    (items : List β) : Course L n (items.foldl step n) := by
  induction items generalizing n with
  | nil => exact .refl
  | cons item rest ih => exact (each n item).trans ih

theorem courses_setDuration (id : EpisodeId) (spec : DurationSpec) :
    Courses L (setDuration id spec) n := by
  refine courses_read fun _ _ => (courses_addDuration ..).bind fun d m _ => ?_
  refine Courses.bind (?_ : Courses L (modify _) m) fun _ _ _ => courses_pure _
  exact course_modifyEpisode (fun _ => ⟨rfl, rfl, rfl, rfl, rfl⟩) fun _ _ => .inl

theorem courses_attachTemporal {id : EpisodeId} {constraint : TemporalId}
    (may : L.attach id constraint) : Courses L (attachTemporal id constraint) n := by
  refine courses_read fun _ _ => courses_read fun _ _ => course_modifyEpisode
    (fun _ => ⟨rfl, rfl, rfl, rfl, rfl⟩) fun e c member => ?_
  rcases OrdSet.mem_insert_iff.mp member with rfl | old
  · exact .inr may
  · exact .inl old

theorem course_withState (n : Network) (span : Span) (id : EpisodeId)
    (constraint : StateConstraintId) :
    Course L n (n.modifyEpisode id (withState span constraint)) := by
  refine course_modifyEpisode (fun e => ?_) fun e c member => ?_ <;> cases span
  all_goals first | exact ⟨rfl, rfl, rfl, rfl, rfl⟩ | exact .inl member

theorem courses_attachState (span : Span) (id : EpisodeId) (constraint : StateConstraintId) :
    Courses L (attachState span id constraint) n := by
  refine courses_read fun _ _ => courses_read fun _ _ => ?_
  have here := course_withState (L := L) n span id constraint
  cases span with
  | start | finish => exact here
  | during | overall =>
    exact here.trans (course_foldl (fun n id => course_withState n .overall id constraint) _)

theorem courses_setBounds (id : TemporalId) (lower upper : Number) :
    Courses L (setBounds id lower upper) n :=
  courses_read fun _ _ => courses_read fun _ _ => .single (.bounds id ({ · with lower, upper }))

theorem courses_replacementDurations (ids : List EpisodeId) :
    Courses L (replacementDurations ids) n := by
  induction ids generalizing n with
  | nil => exact courses_pure []
  | cons id rest ih =>
    exact courses_read fun _ _ => (courses_addDuration ..).bind fun _ _ _ =>
      ih.bind fun _ _ _ => courses_pure _

theorem courses_detachTemporal (id : TemporalId) : Courses L (detachTemporal id) n := by
  refine courses_read fun lasting _ => (courses_replacementDurations lasting).bind
    fun renewals m _ => Courses.bind (?_ : Courses L (modify _) m) fun _ _ _ => ?_
  · refine .single (.revise (Array.size_map ..) fun {other e'} found => ?_)
    rw [lookup_eq_ok_iff, Array.getElem?_map, Option.map_eq_some_iff] at found
    obtain ⟨e, there, rfl⟩ := found
    exact ⟨e, lookup_eq_ok_iff.mpr there, ⟨rfl, rfl, rfl, rfl, rfl⟩,
      fun c member => .inl (OrdSet.mem_erase_iff.mp member).1⟩
  · have renews (n : Network) (renewal : EpisodeId × TemporalId) :
        Course L n (n.modifyEpisode renewal.1 ({ · with duration := renewal.2 })) :=
      course_modifyEpisode (fun _ => ⟨rfl, rfl, rfl, rfl, rfl⟩) fun _ _ => .inl
    exact course_foldl renews renewals

end Edit

end PlanNetwork
