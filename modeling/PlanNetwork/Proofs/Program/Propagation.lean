/-
# Propagation narrows exactly what it should

Propagating a support into an episode is to narrow the episode and what is inside it:
every episode that is reached by going from composites to their internal episodes, with
its events and its duration, and the internal constraints of the composites on the way.
It is to do so to these alone, to all of them or to none, and to leave each of them to
just those valuations that meet the support.

Which valuations there are is up to the choices of the network. No two of them have one
key, so there is a vocabulary that gives each of them its values, and it does not matter
which one is taken. The guards and the support have to speak of these choices and their
values and of nothing else. That their conjunctions can be met is not needed: the check
that drops the others is exact.
-/

import PlanNetwork.Proofs.Composition.Exactness
import PlanNetwork.Proofs.Composition.Settled
import PlanNetwork.Proofs.Program.Identification
import PlanNetwork.Proofs.Support.Domains

namespace PlanNetwork

open Network

variable {V : Vocabulary} {n m k : Network} {s : Support} {element : Guarded}
  {id : EpisodeId} {e : Episode}

/-! ## Valuations of the choices that there are -/

/-- The choices of the network have their values in the vocabulary. -/
def Vocabulary.Suits (V : Vocabulary) (n : Network) : Prop :=
  ∀ {id data}, n.choice id = .ok data → V.domain data.subject.key = data.subject.domain

namespace Network

theorem Keyed.exists_suits (keyed : n.Keyed) : ∃ V : Vocabulary, V.Suits n := by
  have own {id : EventId} {data : Choice} (found : n.choice id = .ok data) :
      data.subject.domain ≠ [] ∧ data.subject.domain.Nodup := by
    obtain ⟨e, there, carries⟩ := choice_eq_ok_iff.mp found
    exact (keyed.own there carries).2.2
  have vocabulary : ∃ V : Vocabulary, ∀ x,
      (∃ id data, n.choice id = .ok data ∧ data.subject = x) → x.domain = V.domain x.key := by
    refine exists_vocabulary _ ?_ ?_ ?_
    · rintro _ ⟨id, data, found, rfl⟩
      exact (own found).1
    · rintro _ ⟨id, data, found, rfl⟩
      exact (own found).2
    · rintro _ _ ⟨a, c, found, rfl⟩ ⟨b, d, found', rfl⟩ same
      obtain rfl := keyed.distinct found found' same
      obtain rfl := Except.ok.inj (found.symm.trans found')
      rfl
  obtain ⟨V, domain⟩ := vocabulary
  exact ⟨V, fun {id data} found => (domain _ ⟨id, data, found, rfl⟩).symm⟩

theorem Live.within {a : Literal} (live : n.Live a) (suits : V.Suits n) : a.Within V := by
  obtain ⟨id, data, found, same, inside⟩ := live
  have domain : V.domain a.choice.key = a.choice.domain := same ▸ suits found
  exact ⟨domain.symm, fun _ => domain ▸ same ▸ inside⟩

theorem live_of_choice {x : ChoiceVariable} {value : String} (id : EventId)
    (subject : (n.choice id).toOption.map (·.subject) = some x) (inside : value ∈ x.domain) :
    n.Live (.is x value) := by
  obtain ⟨data, found, rfl⟩ := Option.map_eq_some_iff.mp subject
  exact ⟨id, data, toOption_eq_some_iff.mp found, rfl, inside⟩

theorem speaks_of_live (guards : ∀ element g, n.guard element = .ok g → g.support.Only n.Live)
    (suits : V.Suits n) : n.Speaks V :=
  fun element g found => (guards element g found).mono fun _ live => live.within suits

/-! ## What belongs to an episode -/

/-- The element belongs to the episode or to one that is reached from it by going into
composites: it is the episode itself, one of its events, its duration, or an internal
constraint if it is a composite. -/
def Comprises (n : Network) (id : EpisodeId) (element : Guarded) : Prop :=
  ∃ x e, Relation.ReflTransGen (fun outer inner => n.Inside inner outer) id x ∧
    n.episode x = .ok e ∧
    (element = .episode x ∨ element = .event e.start ∨ element = .event e.finish ∨
      element = .temporal e.duration ∨
      e.isPrimitive = false ∧ ∃ c ∈ e.constraints.toList, element = .temporal c)

theorem WellFormed.inside_iff (whole : n.WellFormed) {outer inner : EpisodeId} :
    n.Inside inner outer ↔ inner ∈ n.internalEpisodes outer := by
  constructor
  · rintro ⟨f, found, directly⟩
    rwa [whole.internalEpisodes_eq found]
  · intro directly
    cases there : n.episodes[outer.index]? with
    | none => simp [internalEpisodes, there] at directly
    | some f =>
      have found := lookup_eq_ok_iff.mpr there
      exact ⟨f, found, mem_episodes_of_mem_internalEpisodes found directly⟩

/-- The episode is the other one, or it is reached from it by going into composites. -/
def Reaches (n : Network) (id x : EpisodeId) : Prop :=
  Relation.ReflTransGen (fun outer inner => n.Inside inner outer) id x

/-- The unfolding lists the episodes that are reached. -/
theorem WellFormed.reaches_iff (whole : n.WellFormed) {x : EpisodeId} :
    n.Reaches id x ↔ x ∈ n.unfolding id := by
  simp only [Reaches, mem_unfolding_iff, whole.inside_iff]

/-- The walk that propagation makes goes through just what belongs to the episode. -/
theorem WellFormed.comprises_iff (whole : n.WellFormed) (found : n.episode id = .ok e) :
    n.Comprises id element ↔ element ∈ n.parts id := by
  constructor
  · rintro ⟨x, f, reached, there, own⟩
    exact List.mem_flatMap.mpr ⟨x, whole.reaches_iff.mp reached, (mem_ownParts_iff there).mpr own⟩
  · intro part
    obtain ⟨x, met, own⟩ := List.mem_flatMap.mp part
    obtain ⟨f, there⟩ := exists_of_mem_unfolding found met
    exact ⟨x, f, whole.reaches_iff.mpr met, there, (mem_ownParts_iff there).mp own⟩

/-! ## What propagation does -/

/-- Some elements have been left to the valuations that meet the support, and nothing else
has changed. -/
structure Confined (V : Vocabulary) (s : Support) (touched : Guarded → Prop) (n m : Network) :
    Prop where
  /-- Only guards have changed. -/
  bare : m.bare = n.bare
  /-- Nothing is waiting to be undone that was not before. -/
  journal : m.journal = n.journal
  /-- An element that has been touched occurs where it did, if the support holds there. -/
  inside : ∀ {element}, touched element → ∀ v : Valuation V,
    m.Occurs v element ↔ n.Occurs v element ∧ s.Holds v
  /-- Other guards have not changed. -/
  outside : ∀ {element}, ¬ touched element → m.guard element = n.guard element

theorem confined_propagate {touched : Guarded → Prop} {x : Unit} (idle : n.journal = none)
    (parts : ∀ {element}, touched element ↔ element ∈ n.parts id)
    (done : Edit.propagate id s n = .ok x m) (speaks : n.Speaks V) (within : s.Within V) :
    Confined V s touched n m where
  bare := (Edit.narrowed_propagate done).bare
  journal := (Edit.journal_of_propagate idle done).trans idle.symm
  inside {element} part v := by
    rw [Edit.occurs_propagate_iff done speaks within]
    exact and_congr_right fun _ => ⟨fun holds => holds (parts.mp part), fun holds _ => holds⟩
  outside {element} apart := (Edit.narrowed_propagate done).outside element (mt parts.mpr apart)

/-- Where elements have been left to a support already, leaving them to it again changes
nothing that a valuation could tell. -/
theorem Confined.occurs_again {touched : Guarded → Prop} (first : Confined V s touched n m)
    (again : Confined V s touched m k) {v : Valuation V} :
    k.Occurs v element ↔ m.Occurs v element := by
  by_cases part : touched element
  · rw [again.inside part, first.inside part, and_assoc, and_self]
  · rw [Occurs, Occurs, support, support, again.outside part]

/-- Propagation narrows exactly what belongs to the episode. Let a network have come about
in any way, and let its guards and the support speak of its choices and their values only.
There is a vocabulary of these choices, and for each one: the call is refused if and only if
the guard of something that belongs to the episode has no valuation in common with the
support, and then nothing has changed. Otherwise whatever belongs to the episode occurs
under just those valuations that it occurred under before and that meet the support, and
everything else is as it was. A second call with the same support succeeds and leaves every
element to the same valuations, and it changes nothing at all if the support is a single
conjunction. -/
theorem propagation_narrows_exactly
    (reachable : n.Reachable ∨ ∃ p : Program, p.Reachable .free ∧ p.network = n)
    (guards : ∀ element g, n.guard element = .ok g → g.support.Only n.Live)
    (found : n.episode id = .ok e) (only : s.Only n.Live) :
    (∃ V : Vocabulary, V.Suits n) ∧ ∀ V : Vocabulary, V.Suits n →
      ((∃ fault m, Edit.propagate id s n = .error fault m) ↔
        ∃ element, n.Comprises id element ∧ ¬ ∃ v : Valuation V, n.Occurs v element ∧ s.Holds v) ∧
      (∀ fault m, Edit.propagate id s n = .error fault m →
        m = n ∧ ∃ old, fault = .inconsistent ⟨old, s⟩) ∧
      ∀ m, Edit.propagate id s n = .ok () m →
        Confined V s (n.Comprises id) n m ∧
        ∃ k, Edit.propagate id s m = .ok () k ∧ Confined V s (n.Comprises id) m k ∧
          (∀ element (v : Valuation V), k.Occurs v element ↔ m.Occurs v element) ∧
          (s.size = 1 → k = m) := by
  obtain ⟨whole, idle⟩ : n.WellFormed ∧ n.journal = none := by
    rcases reachable with built | ⟨p, built, rfl⟩
    · exact ⟨built.wellFormed, built.idle⟩
    · exact ⟨built.wellFormed, built.idle⟩
  refine ⟨(arises_of_reachable reachable).keyed.exists_suits, fun V suits => ?_⟩
  have speaks := speaks_of_live guards suits
  have within : s.Within V := only.mono fun _ live => live.within suits
  refine ⟨⟨?_, ?_⟩, fun fault m refused => ?_, fun m done => ?_⟩
  · rintro ⟨fault, m, refused⟩
    obtain ⟨_, _, element, part, apart⟩ :=
      Edit.of_propagate_eq_error idle whole found refused speaks within
    exact ⟨element, (whole.comprises_iff found).mpr part, apart⟩
  · rintro ⟨element, belongs, apart⟩
    cases result : Edit.propagate id s n with
    | error fault m => exact ⟨fault, m, rfl⟩
    | ok _ m =>
      have part := (whole.comprises_iff found).mp belongs
      exact absurd (Edit.compatible_of_propagate result speaks within element part) apart
  · obtain ⟨same, clash, _⟩ := Edit.of_propagate_eq_error idle whole found refused speaks within
    exact ⟨same, clash⟩
  · have first := confined_propagate idle (whole.comprises_iff found) done speaks within
    obtain ⟨k, again⟩ := Edit.propagate_again idle whole found done speaks within
    have second : Confined V s (n.Comprises id) m k :=
      confined_propagate (Edit.journal_of_propagate idle done)
        (by rw [parts_of_bare first.bare]; exact whole.comprises_iff found) again
        (Edit.sparesUnder_propagate done speaks within).speaks within
    exact ⟨first, k, again, second, fun _ _ => first.occurs_again second,
      fun single => Edit.eq_of_propagate_again single idle found done again⟩

/-! ## Two episodes in a sequence -/

/-- The choices, as guards know them. -/
def asked (key : Nat) (label : String) : ChoiceVariable := ⟨key, label, .controllable, ["A", "B"]⟩

/-- Two choices, and two episodes one after the other. The sequence starts with the first
episode and ends with the second one, which is executed only if the first choice takes its
first value. -/
@[irreducible] def laidOut : Network :=
  (Network.empty .zero).afterCalls [
    ⟨_, .addChoice { domain := ["A", "B"], id := some "x", kind := some .controllable }⟩,
    ⟨_, .addChoice { domain := ["A", "B"], id := some "y", kind := some .controllable }⟩,
    ⟨_, .addEpisode {}⟩, ⟨_, .addEpisode {}⟩, ⟨_, .sequence [⟨0⟩, ⟨1⟩] {}⟩,
    ⟨_, .propagate ⟨1⟩ (.ofLiteral (.is (asked 1 "x") "A"))⟩]

/-- One of the choices takes its first value. -/
def either : Support := .ofList [.single (.is (asked 1 "x") "A"), .single (.is (asked 2 "y") "A")]

theorem reachable_laidOut : laidOut.Reachable := by
  unfold laidOut
  exact (Reachable.empty _).afterCalls _

theorem live_laidOut {key : Nat} {label : String} (id : EventId)
    (subject : (laidOut.choice id).toOption.map (·.subject) = some (asked key label))
    {value : String} (inside : value ∈ ["A", "B"]) :
    laidOut.Live (.is (asked key label) value) :=
  live_of_choice id subject inside

theorem live_first {value : String} (inside : value ∈ ["A", "B"]) :
    laidOut.Live (.is (asked 1 "x") value) :=
  live_laidOut ⟨0⟩ (by decide +kernel) inside

theorem uses_laidOut : laidOut.Uses laidOut.Live := by
  have only : (Support.ofLiteral (.is (asked 1 "x") "A")).Only laidOut.Live :=
    Support.only_ofLiteral (live_first (by decide))
  have offers : laidOut.Offers laidOut.Live := offers_live laidOut
  unfold laidOut at only offers ⊢
  refine uses_afterCalls (fun call member => ?_) offers
  simp only [List.mem_cons, List.not_mem_nil, or_false] at member
  rcases member with rfl | rfl | rfl | rfl | rfl | rfl
  · trivial
  · trivial
  · trivial
  · trivial
  · trivial
  · exact only

theorem suits_of_asked
    (subjects : (n.events.toList.filterMap (·.choice)).map (·.subject) = [asked 1 "x", asked 2 "y"]) :
    Vocabulary.binary.Suits n := by
  intro id data found
  have among := List.mem_map_of_mem (f := (·.subject)) (mem_choices found)
  rw [subjects] at among
  simp only [List.mem_cons, List.not_mem_nil, or_false] at among
  rcases among with same | same <;> rw [same] <;> rfl

theorem suits_laidOut : Vocabulary.binary.Suits laidOut := suits_of_asked (by decide +kernel)

theorem only_either_of {known : Literal → Prop} (first : known (.is (asked 1 "x") "A"))
    (second : known (.is (asked 2 "y") "A")) : either.Only known := by
  intro c member a there
  have listed := OrdSet.mem_of_mem_ofList member
  simp only [List.mem_cons, List.not_mem_nil, or_false] at listed
  rcases listed with rfl | rfl
  · obtain rfl := List.mem_singleton.mp there
    exact first
  · obtain rfl := List.mem_singleton.mp there
    exact second

theorem only_either : either.Only laidOut.Live :=
  only_either_of (live_first (by decide)) (live_laidOut ⟨1⟩ (by decide +kernel) (by decide))

/-- The first event of the sequence is the first episode's as well and is narrowed twice, so
its support pairs the conjunctions with each other, which adds one that says nothing new.
That of the event in the middle is narrowed once, and changes when the support is propagated
again. The second value of the first choice leaves no valuation to the last event. -/
theorem propagation_narrows_exactly_either :
    let sizes (n : Network) :=
      [⟨2⟩, ⟨3⟩].map fun id => (n.support (.event id)).toOption.map (·.size)
    laidOut.Reachable ∧ (∀ element g, laidOut.guard element = .ok g → g.support.Only laidOut.Live) ∧
      either.Only laidOut.Live ∧
      (∃ m k, Edit.propagate ⟨2⟩ either laidOut = .ok () m ∧
        Confined .binary either (laidOut.Comprises ⟨2⟩) laidOut m ∧
        sizes m = [some 3, some 2] ∧ Edit.propagate ⟨2⟩ either m = .ok () k ∧
        sizes k = [some 3, some 3] ∧
        ∀ element (v : Valuation .binary), k.Occurs v element ↔ m.Occurs v element) ∧
      ∃ old, Edit.propagate ⟨2⟩ (.ofLiteral (.is (asked 1 "x") "B")) laidOut =
        .error (.inconsistent ⟨old, .ofLiteral (.is (asked 1 "x") "B")⟩) laidOut := by
  intro sizes
  have reachable : laidOut.Reachable ∨
      ∃ p : Program, p.Reachable .free ∧ p.network = laidOut := .inl reachable_laidOut
  have made : (laidOut.episode ⟨2⟩).toOption.isSome = true := by decide +kernel
  obtain ⟨e, found⟩ := Option.isSome_iff_exists.mp made
  have found := toOption_eq_some_iff.mp found
  have done : Edit.propagate ⟨2⟩ either laidOut =
      .ok () ((Edit.propagate ⟨2⟩ either).after laidOut) :=
    Attempt.eq_ok_of_result? (by decide +kernel)
  obtain ⟨_, narrows⟩ := propagation_narrows_exactly reachable uses_laidOut.guard found only_either
  obtain ⟨_, _, succeeds⟩ := narrows .binary suits_laidOut
  obtain ⟨confined, k, again, _, occurs, _⟩ := succeeds _ done
  have later : sizes k = [some 3, some 3] := by
    rw [← Attempt.after_of_ok again]
    decide +kernel
  have second : (Support.ofLiteral (.is (asked 1 "x") "B")).Only laidOut.Live :=
    Support.only_ofLiteral (live_first (by decide))
  obtain ⟨_, refuses⟩ := propagation_narrows_exactly reachable uses_laidOut.guard found second
  obtain ⟨_, undone, _⟩ := refuses .binary suits_laidOut
  have stops : (Edit.propagate ⟨2⟩
      (.ofLiteral (.is (asked 1 "x") "B"))).isRefused laidOut = true := by decide +kernel
  obtain ⟨fault, m, refused⟩ := Attempt.exists_of_isRefused stops
  obtain ⟨rfl, old, rfl⟩ := undone fault m refused
  exact ⟨reachable_laidOut, uses_laidOut.guard, only_either,
    ⟨_, k, done, confined, by decide +kernel, again, later, occurs⟩, old, refused⟩

end Network

end PlanNetwork
