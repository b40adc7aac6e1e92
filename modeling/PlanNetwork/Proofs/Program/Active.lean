/-
# Which constraints are active

The constraints that are active under an assignment of values to choices are those
whose guards have a conjunction with all its literals among the ones given. If
every choice is given one value, this is a conjunction that is true and rules no
value out. So what is active is satisfied. What is satisfied is not always active:
behind a branch that ends the execution guards rule its value out, and a literal
that rules a value out is not among the ones given, though it follows from the
value that is.
-/

import PlanNetwork.Proofs.Program.Coherence
import PlanNetwork.Proofs.Program.Literals
import PlanNetwork.Proofs.Program.Recursion
import PlanNetwork.Proofs.Program.Survey

namespace PlanNetwork

open Network

variable {V : Vocabulary} {n : Network} {p q : Program} {given : Literal → Prop}
  {c : Conjunction} {v : Valuation V} {s : Support}

/-! ## What is given -/

/-- Each choice is given one of its values, and nothing else is said. -/
structure Network.Decided (n : Network) (c : Conjunction) : Prop where
  /-- Each choice is given exactly one value, and it has this value. -/
  each : ∀ {id data}, n.choice id = .ok data →
    ∃ value ∈ data.subject.domain, ∀ a, a ∈ c.toList ∧ a.choice = data.subject ↔
      a = .is data.subject value
  /-- Nothing is said about anything but a choice. -/
  only : ∀ a ∈ c.toList, ∃ id data, n.choice id = .ok data ∧ a.choice = data.subject

namespace Network.Decided

theorem positive (h : n.Decided c) : ∀ a ∈ c.toList, a.negated = false := by
  intro a member
  obtain ⟨id, data, found, about⟩ := h.only a member
  obtain ⟨value, _, one⟩ := h.each found
  rw [(one a).mp ⟨member, about⟩]
  rfl

/-- A literal that assigns a choice the value that it has is given. -/
theorem contains (h : n.Decided c) (holds : c.Holds v) {a : Literal} {id : EventId} {data : Choice}
    (found : n.choice id = .ok data) (about : data.subject.key = a.choice.key)
    (assigns : a.negated = false) (true_ : a.Holds v) : c.literals.contains a = true := by
  obtain ⟨value, _, one⟩ := h.each found
  obtain ⟨member, _⟩ := (one _).mpr rfl
  have has : v.value data.subject.key = value := holds _ member
  have wants : v.value a.choice.key = a.value := by
    simpa only [Literal.Holds, assigns, Bool.false_eq_true, if_false] using true_
  refine List.any_eq_true.mpr ⟨_, member, beq_iff_eq.mpr (Literal.compare_eq_iff.mpr ?_)⟩
  exact ⟨about.symm, by rw [← wants, ← has, about]; rfl, assigns⟩

end Network.Decided

namespace Support

/-- Some conjunction is true that rules no value out. -/
def HoldsPlainly (v : Valuation V) (s : Support) : Prop :=
  ∃ c ∈ s.toList, c.Holds v ∧ ∀ a ∈ c.toList, a.negated = false

/-- If each choice is given the value that it has, those supports are active that
have a true conjunction without exclusions. -/
theorem isActive_iff (decided : n.Decided c) (holds : c.Holds v)
    (about : s.Only fun a => ∃ id data, n.choice id = .ok data ∧ data.subject.key = a.choice.key) :
    s.isActive c = true ↔ s.HoldsPlainly v := by
  simp only [isActive, List.any_eq_true, Conjunction.isSubset, OrdSet.isSubset, List.all_eq_true]
  constructor
  · rintro ⟨d, inside, among⟩
    have same : ∀ a ∈ d.toList, ∃ b ∈ c.toList, compare a b = .eq := fun a there => by
      obtain ⟨b, member, equal⟩ := List.any_eq_true.mp (among a there)
      exact ⟨b, member, beq_iff_eq.mp equal⟩
    refine ⟨d, inside, fun a there => ?_, fun a there => ?_⟩ <;>
      obtain ⟨b, member, equal⟩ := same a there
    · exact (Literal.holds_congr v equal).mpr (holds b member)
    · rw [(Literal.compare_eq_iff.mp equal).2.2]
      exact decided.positive b member
  · rintro ⟨d, inside, true_, positive⟩
    refine ⟨d, inside, fun a there => ?_⟩
    obtain ⟨id, data, found, key⟩ := about d inside a there
    exact decided.contains holds found key (positive a there) (true_ a there)

end Support

/-! ## What is asked -/

namespace Traversal

variable {plan : Option EpisodeId} {user : OrdSet TemporalId} {t t' : Traversal}

/-- What a traversal meets is there. -/
theorem has_of_collect (whole : n.WellFormed) (done : collect n plan user = .ok t) :
    (∀ event ∈ t.events.toList, n.Has (.event event)) ∧
      ∀ c ∈ t.constraints.toList, n.Has (.temporal c) := by
  obtain ⟨inner, planned, rest⟩ := collect_eq_ok_iff.mp done
  constructor
  · intro event member
    rcases (mem_events_of_meetEndpoints rest).mp member with met | ⟨id, _, c, found, ends⟩
    · obtain ⟨id, _, e, found, ends⟩ := ((mem_events_of_meetEpisodes planned).mp met).resolve_left
        OrdSet.not_mem_empty
      have fits := whole.episode found
      rcases ends with rfl | rfl
      · exact WellFormed.has_event fits.start
      · exact WellFormed.has_event fits.finish
    · have joins := whole.temporal c (Array.mem_of_getElem? (lookup_eq_ok_iff.mp found))
      rcases ends with rfl | rfl
      · exact WellFormed.has_event joins.1
      · exact WellFormed.has_event joins.2
  · intro c member
    obtain ⟨walkable, met⟩ := met_of_collect done
    obtain ⟨id, inside, own⟩ := ((met.constraints c).mp member).resolve_left OrdSet.not_mem_empty
    obtain ⟨e, found⟩ := walkable.there id inside
    rcases (mem_ownConstraints_iff found).mp own with rfl | internal
    · exact WellFormed.has_temporal (whole.duration_lt found)
    · exact WellFormed.has_temporal ((whole.episode found).constraints c internal)

end Traversal

namespace Build

variable {allowed : Discipline} {walk : Traversal} {ids : OrdSet TemporalId}

/-- After a view, its result is kept, and what belongs to the program is there. -/
theorem has_of_view (reachable : p.Reachable allowed) (viewed : view p = .ok walk q) :
    q.traversal = some walk ∧ (∀ event ∈ walk.events.toList, q.network.Has (.event event)) ∧
      ∀ c ∈ (walk.constraints.union q.userConstraints).toList, q.network.Has (.temporal c) := by
  obtain ⟨waiting, reached⟩ := reachable
  have after : view.after p = q := Attempt.after_of_ok viewed
  have coherent : q.Coherent waiting walk := by
    rcases view_eq_ok viewed with ⟨cached, rfl⟩ | ⟨_, current⟩
    · exact reached.coherent cached
    · exact current.coherent waiting
  have whole : q.network.WellFormed := by
    have before : p.network.WellFormed := Program.Reachable.wellFormed ⟨waiting, reached⟩
    exact after ▸ (Call.view.respects_run respected_wellFormed trivial p).network before
  obtain ⟨r, _, cached, collected⟩ := coherent.collected
  obtain ⟨events, constraints⟩ := Traversal.has_of_collect whole collected
  have kept : q.traversal = some walk := by
    rcases view_eq_ok viewed with ⟨cached, rfl⟩ | ⟨_, current⟩
    · exact cached
    · exact current.cached
  refine ⟨kept, events, fun c member => ?_⟩
  rcases OrdSet.mem_union_iff.mp member with inside | users
  · exact constraints c inside
  · obtain ⟨found, there, _⟩ := coherent.derived c users
    exact WellFormed.has_temporal (lookup_index_lt there)

/-- Whenever the temporal constraints can be read, the hierarchy can be made, and it
keeps each of them with its support. -/
theorem exists_hierarchy (reachable : p.Reachable allowed) (read : constraints p = .ok ids q) :
    ∃ h, hierarchy p = .ok h q ∧ List.Forall₂
      (fun entry id => Hierarchy.constraintOf q.network id = .ok entry) h.constraints ids.toList := by
  obtain ⟨walk, viewed, rfl⟩ := constraints_eq_ok_iff.mp read
  obtain ⟨cached, events, constraints⟩ := has_of_view reachable viewed
  obtain ⟨choices, listed, wanted⟩ := exists_choiceEvents events ∅
  have known : ∀ event ∈ choices.toList, ∃ entry, Hierarchy.entryOf q.network event = .ok entry := by
    intro event member
    obtain ⟨met, data, carried, _⟩ := ((wanted event).mp member).resolve_left OrdSet.not_mem_empty
    obtain ⟨s, support⟩ := (events event met).exists_support
    exact ⟨_, Hierarchy.entryOf_eq_ok_iff.mpr ⟨data, s, carried, support, rfl⟩⟩
  obtain ⟨entries, entered, _⟩ := exists_mapM known
  obtain ⟨guarded, supported, each⟩ := exists_mapM (f := Hierarchy.constraintOf q.network)
    fun c member => by
      obtain ⟨s, support⟩ := (constraints c member).exists_support
      exact ⟨(c, s), map_eq_ok_iff.mpr ⟨s, support, rfl⟩⟩
  refine ⟨_, Attempt.bind_eq_ok_iff.mpr ⟨choices, q, choicesWhere_eq_ok_iff.mpr
    ⟨walk, viewed, listed⟩, Attempt.bind_eq_ok_iff.mpr ⟨_, q, constraints_eq_ok_iff.mpr
    ⟨walk, view_of_cached cached, rfl⟩, Attempt.read_eq_ok_iff.mpr
    ⟨bind_eq_ok_iff.mpr ⟨entries, entered, bind_eq_ok_iff.mpr ⟨guarded, supported, rfl⟩⟩, rfl⟩⟩⟩,
    each⟩

end Build

namespace Hierarchy

variable {h : Hierarchy} {ids : List TemporalId} {id : TemporalId}

/-- A constraint is active if its support is. -/
theorem mem_activeConstraints_iff
    (each : List.Forall₂ (fun entry id => constraintOf n id = .ok entry) h.constraints ids) :
    id ∈ h.activeConstraints c ↔
      id ∈ ids ∧ ∃ s, n.support (.temporal id) = .ok s ∧ s.isActive c = true := by
  unfold activeConstraints
  generalize h.constraints = entries at each
  induction each with
  | nil => simp
  | @cons _ first entries rest head _ ih =>
    obtain ⟨s, support, rfl⟩ := map_eq_ok_iff.mp head
    have here : id = first ∧ s.isActive c = true ↔
        id = first ∧ ∃ s, n.support (.temporal id) = .ok s ∧ s.isActive c = true := by
      refine and_congr_right fun same => ?_
      simp [same, support]
    rw [List.mem_cons, or_and_right, ← here, ← ih, List.filter_cons]
    by_cases active : s.isActive c = true
    · simp [active]
    · simp [active]

end Hierarchy

/-! ## What is active -/

/-- What is active is satisfied, and what is satisfied by a conjunction that rules
no value out is active. In every program that has come about by calls whose guards
speak of its choices, if the temporal constraints can be read, the hierarchy can be
made. If each choice is given one of its values and nothing else is said, then the
active constraints are those of the temporal constraints whose guards have a
conjunction that is true under these values and has no exclusion. -/
theorem Program.active_constraints_hold_plainly (reachable : p.Reachable (.speaking given))
    (about : ∀ a, given a → ∃ id data, p.network.choice id = .ok data ∧
      data.subject.key = a.choice.key)
    (decided : p.network.Decided c) (describes : c.Holds v) {ids : OrdSet TemporalId}
    (read : Build.constraints p = .ok ids q) :
    ∃ h, Build.hierarchy p = .ok h q ∧ ∀ id, id ∈ h.activeConstraints c ↔
      id ∈ ids.toList ∧ ∃ s, q.network.support (.temporal id) = .ok s ∧ s.HoldsPlainly v := by
  obtain ⟨h, made, each⟩ := Build.exists_hierarchy reachable read
  refine ⟨h, made, fun id => (Hierarchy.mem_activeConstraints_iff each).trans ?_⟩
  have after : Call.constraints.run.after p = q := Attempt.after_of_ok read
  have uses := (after ▸ reachable.call .constraints trivial : q.Reachable (.speaking given)).speaks
  -- reading leaves the events and their choices alone
  have same {id data} : q.network.choice id = .ok data ↔ p.network.choice id = .ok data := by
    obtain ⟨walk, viewed, _⟩ := Build.constraints_eq_ok_iff.mp read
    have events := (Build.looks_view.of_ok viewed).network.events
    rw [Network.choice, Network.event, events, Network.choice, Network.event]
  refine and_congr_right fun _ => exists_congr fun s => and_congr_right fun found => ?_
  refine Support.isActive_iff decided describes ((uses.support found).mono fun a => ?_)
  rintro (brought | ⟨id, data, chosen, subject, _⟩)
  · exact about a brought
  · exact ⟨id, data, same.mp chosen, subject ▸ rfl⟩

/-- The only choice is given its value, if it is given one and nothing else is said. -/
theorem Network.decided_single {id : EventId} {data : Choice} {value : String}
    (found : n.choice id = .ok data) (member : value ∈ data.subject.domain)
    (only : ∀ {id' data'}, n.choice id' = .ok data' → data'.subject = data.subject) :
    n.Decided (.single (.is data.subject value)) where
  each := fun {_ data'} found' => by
    refine ⟨value, only found' ▸ member, fun a => ?_⟩
    have one : a ∈ (Conjunction.single (.is data.subject value)).toList ↔
        a = .is data.subject value := List.mem_singleton
    rw [only found', one]
    exact and_iff_left_of_imp fun same => same ▸ rfl
  only := fun a member => ⟨id, data, found, List.mem_singleton.mp member ▸ rfl⟩

/-! ### A choice that may end the execution -/

/-- A plan that decides between an episode that ends the execution and one that
does not. -/
def Program.ending : Program :=
  (Program.ofConfig {}).afterCalls [
    ⟨_, .addEpisode { terminal := true }⟩,
    ⟨_, .addEpisode {}⟩,
    ⟨_, .decide { domain := ["A", "B"] } [.episode ⟨0⟩, .episode ⟨1⟩] {}⟩,
    ⟨_, .setPlan (.episode ⟨2⟩)⟩]

namespace Program

/-- Its only choice. -/
def outcome : ChoiceVariable := ⟨9, "Choice_9", .controllable, ["A", "B"]⟩

/-- The choice of the episode that does not end the execution. -/
def onward : Conjunction := .single (.is outcome "B")

theorem reachable_ending : ending.Reachable (.speaking fun _ => False) :=
  (reachable_of_config (by decide +kernel)).afterCalls fun _ member => by
    simp only [List.mem_cons, List.not_mem_nil, or_false] at member
    rcases member with rfl | rfl | rfl | rfl <;> trivial

theorem decided_onward : ending.network.Decided onward := by
  have choices : (ending.network.events.toList.filterMap (·.choice)).map (·.subject) = [outcome] := by
    decide +kernel
  have only {id : EventId} {data : Choice} (found : ending.network.choice id = .ok data) :
      data.subject = outcome := by
    have among := List.mem_map_of_mem (f := (·.subject)) (mem_choices found)
    rw [choices] at among
    exact List.mem_singleton.mp among
  have chosen : (ending.network.choice ⟨4⟩).toOption.isSome = true := by decide +kernel
  obtain ⟨data, found⟩ := Option.isSome_iff_exists.mp chosen
  have found := toOption_eq_some_iff.mp found
  have decided : ending.network.Decided (.single (.is data.subject "B")) :=
    decided_single found (by rw [only found]; decide) fun found' => (only found').trans (only found).symm
  rwa [only found] at decided

theorem holds_onward : onward.Holds .second := fun a member => by
  rw [List.mem_singleton.mp member]
  rfl

/-- If the execution goes on, what is active is satisfied by the value alone. -/
theorem active_constraints_hold_plainly_ending : ending.Reachable (.speaking fun _ => False) ∧
    ending.network.Decided onward ∧ onward.Holds .second ∧
    ∃ ids q, Build.constraints ending = .ok ids q ∧
      ∃ h, Build.hierarchy ending = .ok h q ∧ ∀ id, id ∈ h.activeConstraints onward ↔
        id ∈ ids.toList ∧ ∃ s, q.network.support (.temporal id) = .ok s ∧ s.HoldsPlainly .second := by
  obtain ⟨ids, read⟩ := Attempt.exists_eq_ok_after Build.constraints ending (by decide +kernel)
  exact ⟨reachable_ending, decided_onward, holds_onward, ids, _, read,
    active_constraints_hold_plainly reachable_ending (fun _ given => given.elim) decided_onward
      holds_onward read⟩

/-- The duration of the composite is satisfied then, but not active: its guard rules
the first value out, and no literal that rules a value out is given. -/
theorem satisfied_duration_inactive : ending.Reachable (.speaking fun _ => False) ∧
    ending.network.Decided onward ∧ onward.Holds .second ∧
    ∃ ids h q, Build.constraints ending = .ok ids q ∧ Build.hierarchy ending = .ok h q ∧
      ∃ id ∈ ids.toList, id ∉ h.activeConstraints onward ∧
        ∃ s, q.network.support (.temporal id) = .ok s ∧ s.Holds .second := by
  have lists : (Build.constraints.result? ending).map (·.toList.contains ⟨5⟩) = some true := by
    decide +kernel
  have guards : ((Build.constraints.after ending).network.support (.temporal ⟨5⟩)).toOption.map
      (fun s => (s.isActive onward, s.toList.map (·.toList))) =
      some (false, [[.isNot outcome "A"]]) := by decide +kernel
  obtain ⟨ids, returns, member⟩ := Option.map_eq_some_iff.mp lists
  have read := Attempt.eq_ok_of_result? returns
  obtain ⟨s, found, guard⟩ := Option.map_eq_some_iff.mp guards
  obtain ⟨inactive, literals⟩ := Prod.ext_iff.mp guard
  have found := toOption_eq_some_iff.mp found
  obtain ⟨d, only, excludes⟩ := List.map_eq_singleton_iff.mp literals
  obtain ⟨h, made, each⟩ := Build.exists_hierarchy reachable_ending read
  refine ⟨reachable_ending, decided_onward, holds_onward, ids, h, _, read, made, ⟨5⟩,
    List.contains_iff_mem.mp member, fun active => ?_, s, found, d, ?_, fun a there => ?_⟩
  · obtain ⟨_, t, found', active⟩ := (Hierarchy.mem_activeConstraints_iff each).mp active
    obtain rfl := Except.ok.inj (found.symm.trans found')
    exact Bool.false_ne_true (inactive.symm.trans active)
  · rw [only]
    exact List.mem_singleton_self d
  · rw [excludes] at there
    rw [List.mem_singleton.mp there]
    exact (show ¬ "B" = "A" by decide)

end Program

end PlanNetwork
