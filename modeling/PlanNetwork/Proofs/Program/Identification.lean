/-
# Which choice a guard speaks of

A guard knows a choice by a key. The key is the serial number of the event that the
choice is made with, and serial numbers are not used again, even if the event is undone
together with everything that has been written about it. So a guard speaks of one choice
only, and of one that is there, if callers speak of nothing else themselves.

What guards say comes from the choices that there are in the end, from literals that
were in guards before, and from callers. A call may make a choice and be refused later:
then the choice is gone, and whatever has been said about it has been taken back by the
same undoing. In between a literal can be about a choice that will be gone, and this is
why an operation is looked at as a whole.

Other elements are not as safe as choices. A caller who uses one identity for two events
gets two events with one serial number, and a caller who makes up an identity gets an
event with a number that another element may be given later. The events that callers
have identified are the only ones that this can happen to.
-/

import PlanNetwork.Proofs.Program.Conduct

namespace PlanNetwork

open Network

variable {n m : Network} {conduct : NetworkConduct} {handed : Nat → Bool} {α : Type}

namespace Network

/-- The literal is about a choice that is there, and a value that it can take. -/
def Live (n : Network) (a : Literal) : Prop :=
  ∃ id data, n.choice id = .ok data ∧ data.subject = a.choice ∧ a.value ∈ data.subject.domain

/-- Choices can be told apart by what guards know of them, and guards speak of nothing
else. -/
structure Identified (n : Network) : Prop where
  /-- No two choices have one key. -/
  key : ∀ {a b c d}, n.choice a = .ok c → n.choice b = .ok d →
    c.subject.key = d.subject.key → a = b
  /-- A choice has values, none of them twice. -/
  domain : ∀ {id c}, n.choice id = .ok c → c.subject.domain ≠ [] ∧ c.subject.domain.Nodup
  /-- The literals of guards are about choices that are there, and their values. -/
  literal : ∀ element g, n.guard element = .ok g → g.support.Only n.Live

theorem Live.stays {a : Literal} (live : n.Live a) (stays : Stays n m) : m.Live a := by
  obtain ⟨id, data, found, rest⟩ := live
  exact ⟨id, data, stays.choice found, rest⟩

/-- What can be said about a choice that is there is about a choice that is there. -/
theorem offers_live (n : Network) : n.Offers n.Live := fun {id data} found _ inside =>
  ⟨⟨id, data, found, rfl, inside⟩, ⟨id, data, found, rfl, inside⟩⟩

theorem Uses.mono {known more : Literal → Prop} (h : n.Uses known)
    (implies : ∀ a, known a → more a) : n.Uses more :=
  ⟨fun found value inside => (h.choice found value inside).imp (implies _) (implies _),
    fun element g found => (h.guard element g found).mono implies⟩

/-- Guards that have spoken of choices that are there still do, if nothing has come in
but literals about these. -/
theorem Uses.echoes (h : n.Uses n.Live) (stays : Stays n m) (echoes : Echoes m.Live n m) :
    m.Uses m.Live :=
  echoes.uses (offers_live m) (h.mono fun _ live => live.stays stays)

end Network

/-! ## What calls keep -/

/-- If an event is identified by the caller, then by a serial number that has been given
out and is spare. -/
def NetworkCall.Identifies (n : Network) : NetworkCall α → Prop
  | addEventAs identity => n.Spare identity.serial
  | _ => True

/-- If an event is identified by the caller, then by one of these serial numbers, be it
spare or not. -/
def NetworkCall.Hands (handed : Nat → Bool) : NetworkCall α → Prop
  | addEventAs identity => handed identity.serial = true
  | _ => True

/-- Whatever the outcome, a call leaves guards that speak of choices that are there, if
the caller does so. -/
theorem NetworkCall.uses_live_run (call : NetworkCall α) (speaks : call.Brings (.speaking n.Live))
    (h : n.Uses n.Live) : (call.run.after n).Uses (call.run.after n).Live := by
  have stays := Course.stays (call.courses_run call.within_full n)
  have brings : (Call.edit call).Brings (.speaking (call.run.after n).Live) :=
    Call.brings_mono (fun _ live => live.stays stays) (.edit call) speaks
  exact h.echoes stays (call.echoes_run brings n)

/-- Whatever the outcome, a call leaves no two elements with one serial number, but for
those that callers have handed over. -/
theorem NetworkCall.numbered_run (call : NetworkCall α)
    (identifies : call.Identifies n ∨ call.Hands handed) (h : n.Numbered handed) :
    (call.run.after n).Numbered handed := by
  have course (within : call.Within .unidentified) : (call.run.after n).Numbered handed :=
    h.course (call.courses_run within n) fun _ => id
  cases call with
  | addEventAs identity =>
    refine h.pushEvent (fun counts => ?_) (Nat.le_refl _)
    rcases identifies with spare | hands
    · exact ⟨spare.1, fun borne => spare.2 ((serialsBut_sublist handed n).subset borne)⟩
    · change handed identity.serial = true at hands
      simp [Event.counts, hands] at counts
  | _ => exact course trivial

namespace Network

/-- Callers who speak of choices that are there leave guards that do so. -/
theorem Arises.uses_live (arises : n.Arises conduct)
    (speaks : ∀ {α : Type} {n} {call : NetworkCall α}, conduct n call →
      call.Brings (.speaking n.Live)) : n.Uses n.Live :=
  arises.holds_network (fun n => n.Uses n.Live) (fun tolerance => uses_empty tolerance)
    (fun course echoes h => h.echoes course.stays (echoes _))
    (fun may h => NetworkCall.uses_live_run _ (speaks may) h)

theorem Arises.keyed (arises : n.Arises conduct) : n.Keyed :=
  arises.holds_network Keyed keyed_empty (fun course _ h => h.course course)
    (fun {_ n call} _ h => h.course (call.courses_run call.within_full n))

/-- Callers leave no two elements with one serial number, but for those that they have
handed over when these were not spare. -/
theorem Arises.numbered (arises : n.Arises conduct)
    (identifies : ∀ {α : Type} {n} {call : NetworkCall α}, conduct n call →
      call.Identifies n ∨ call.Hands handed) : n.Numbered handed :=
  arises.holds_network (Numbered handed) numbered_empty
    (fun course _ h => h.course course fun _ => id)
    (fun may h => NetworkCall.numbered_run _ (identifies may) h)

/-- Callers who use an identity once leave no two elements with one serial number. -/
theorem Arises.nodup_serials (arises : n.Arises conduct)
    (identifies : ∀ {α : Type} {n} {call : NetworkCall α}, conduct n call → call.Identifies n) :
    n.serials.Nodup :=
  serialsBut_none n ▸ (arises.numbered fun may => .inl (identifies may)).distinct

/-- In every network that comes about, by itself or in a program, by calls that succeed or
are refused, and by callers who speak of choices that are there and of their values: no two
choices have one key, a choice has values and none of them twice, and every literal in a
guard is about a choice that is there and one of its values.

Two elements have one serial number only if one of them is an event without a choice, and
a caller has handed over that number for an event when it was not spare. So there are no
two such elements if every number that is handed over has been given out, and is borne by
nothing then. -/
theorem choices_are_identified
    (speaks : ∀ {α : Type} {n} {call : NetworkCall α}, conduct n call →
      call.Brings (.speaking n.Live))
    (arises : n.Arises conduct) :
    n.Identified ∧
      (∀ handed : Nat → Bool,
        (∀ {α : Type} {n} {call : NetworkCall α}, conduct n call →
          call.Identifies n ∨ call.Hands handed) → (n.serialsBut handed).Nodup) ∧
      ((∀ {α : Type} {n} {call : NetworkCall α}, conduct n call → call.Identifies n) →
        n.serials.Nodup) := by
  have keyed := arises.keyed
  refine ⟨⟨keyed.distinct, fun found => ?_, (arises.uses_live speaks).guard⟩,
    fun handed identifies => (arises.numbered identifies).distinct, arises.nodup_serials⟩
  obtain ⟨e, there, carries⟩ := choice_eq_ok_iff.mp found
  exact (keyed.own there carries).2.2

end Network

/-! ## Two runs -/

/-- Callers speak of choices that are there, and use an identity that they have been given
for one event at most. -/
def NetworkCall.Honest : NetworkConduct := fun _ n call =>
  call.Brings (.speaking n.Live) ∧ call.Identifies n

/-- Callers speak of choices that are there. What they do with identities is their own
business. -/
def NetworkCall.Speaks : NetworkConduct := fun _ n call => call.Brings (.speaking n.Live)

/-- Callers speak of choices that are there, and have one identity that they use again. -/
def NetworkCall.Careless : NetworkConduct := fun _ n call =>
  call.Brings (.speaking n.Live) ∧ call.Hands (· == 1)

namespace Program

/-- A decision between two steps. Another decision has one step for two values and is
refused, after its choice has been made. Then a caller takes an identity. -/
@[irreducible] def posed : Program :=
  (ofConfig {}).afterCalls [⟨_, .addEpisode {}⟩, ⟨_, .addEpisode {}⟩,
    ⟨_, .decide { domain := ["A", "B"] } [.episode ⟨0⟩, .episode ⟨1⟩] {}⟩,
    ⟨_, .decide { domain := ["C", "D"] } [.episode ⟨2⟩] {}⟩, ⟨_, .allocate "Event"⟩]

/-- The caller makes an event with the identity. -/
@[irreducible] def joined : Program :=
  (Call.edit (.addEventAs (.fresh "Event" 18))).run.after posed

/-- The choice of the decision, as guards know it. -/
def question : ChoiceVariable := ⟨9, "Choice_9", .controllable, ["A", "B"]⟩

/-- The event exists only if the decision is for the first value. -/
@[irreducible] def answered : Program :=
  (Call.edit (.narrow (.event ⟨6⟩) (.ofLiteral (.is question "A")))).run.after joined

theorem live_question : joined.network.Live (.is question "A") := by
  have asked : (joined.network.choice ⟨4⟩).toOption.map (·.subject) = some question := by
    decide +kernel
  obtain ⟨data, found, same⟩ := Option.map_eq_some_iff.mp asked
  refine ⟨⟨4⟩, data, toOption_eq_some_iff.mp found, same, ?_⟩
  rw [same]
  decide

theorem conducted_answered : Conducted (Call.Through NetworkCall.Honest) answered [] := by
  have start : Conducted (Call.Through NetworkCall.Honest) posed [] := by
    unfold posed
    exact (conducted_of_config (by decide +kernel)).afterCalls (by simp [Call.Through])
  have spare : posed.network.Spare 18 := by
    unfold Network.Spare
    decide +kernel
  have middle : Conducted (Call.Through NetworkCall.Honest) joined [] := by
    unfold joined
    exact start.call (.edit (.addEventAs (.fresh "Event" 18))) ⟨trivial, spare⟩
  unfold answered
  exact middle.call (.edit (.narrow (.event ⟨6⟩) (.ofLiteral (.is question "A"))))
    ⟨Support.only_ofLiteral live_question, trivial⟩

/-- A caller takes an identity and makes two events with it. An episode comes after them. -/
@[irreducible] def copied : Program :=
  (ofConfig {}).afterCalls [⟨_, .allocate "Event"⟩, ⟨_, .edit (.addEventAs (.fresh "Event" 1))⟩,
    ⟨_, .edit (.addEventAs (.fresh "Event" 1))⟩, ⟨_, .addEpisode {}⟩]

theorem conducted_copied : Conducted (Call.Through NetworkCall.Careless) copied [] := by
  unfold copied
  refine (conducted_of_config (by decide +kernel)).afterCalls ?_
  simp [Call.Through, NetworkCall.Careless, NetworkCall.Brings, NetworkCall.Hands, Identity.fresh]

end Program

/-- In the first run the guard of the event speaks of the decision. The serial number of the
choice that has been undone, which is 17, is left out. In the second run it is only the
events of the one identity that share their serial number. -/
theorem Network.choices_are_identified_answered :
    let n := Program.answered.network
    let m := Program.copied.network
    (n.Arises NetworkCall.Honest ∧ n.serials.length = 17 ∧ n.nextSerial = 19 ∧
      (∃ s, n.support (.event ⟨6⟩) = .ok s ∧
        s.toList.map (·.toList) = [[.is Program.question "A"]]) ∧
      n.Identified ∧ n.serials.Nodup) ∧
    (m.Arises NetworkCall.Careless ∧ m.serials = [1, 1, 2, 3, 4, 5] ∧ m.Identified ∧
      m.serialsBut (· == 1) = [2, 3, 4, 5] ∧ (m.serialsBut (· == 1)).Nodup) := by
  intro n m
  refine ⟨?_, ?_⟩
  · have arises : n.Arises NetworkCall.Honest :=
      .inr ⟨Program.answered, ⟨[], Program.conducted_answered⟩, rfl⟩
    obtain ⟨identified, _, distinct⟩ := choices_are_identified (fun may => may.1) arises
    have guarded : (n.support (.event ⟨6⟩)).toOption.map (fun s => s.toList.map (·.toList)) =
        some [[.is Program.question "A"]] := by decide +kernel
    obtain ⟨s, found, literals⟩ := Option.map_eq_some_iff.mp guarded
    exact ⟨arises, by decide +kernel, by decide +kernel,
      ⟨s, toOption_eq_some_iff.mp found, literals⟩, identified, distinct fun may => may.2⟩
  · have arises : m.Arises NetworkCall.Careless :=
      .inr ⟨Program.copied, ⟨[], Program.conducted_copied⟩, rfl⟩
    obtain ⟨identified, others, _⟩ := choices_are_identified (fun may => may.1) arises
    exact ⟨arises, by decide +kernel, identified, by decide +kernel,
      others (· == 1) fun may => .inr may.2⟩

/-- An identity is given out once, but callers who speak of nothing but choices that are
there can still use it for two events. Then two elements have one serial number. -/
theorem Network.serials_are_shared_by_events_of_one_identity :
    let n := Program.copied.network
    (∃ p, (Call.allocate "Event").run (.ofConfig {}) = .ok (.fresh "Event" 1) p) ∧
      n.Arises NetworkCall.Speaks ∧ n.serials = [1, 1, 2, 3, 4, 5] ∧ ¬ n.serials.Nodup := by
  intro n
  refine ⟨⟨_, rfl⟩, .inr ⟨Program.copied, ⟨[], ?_⟩, rfl⟩, by decide +kernel, by decide +kernel⟩
  refine Program.conducted_copied.mono fun p call may => ?_
  cases call with
  | edit call => exact may.1
  | _ => trivial

end PlanNetwork
