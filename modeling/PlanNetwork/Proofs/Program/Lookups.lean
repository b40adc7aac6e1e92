/-
# Utilities and probabilities by value

A choice keeps its utilities and its probabilities in lists of their own, beside its values. What
they say of a value is found by counting: the entry stands where the value stands among the
values. Nothing checks that there is an entry at that place, so an answer can be relied on only if
each list is as long as that of the values, and if no value is there twice, for otherwise the first
place is taken where the second is meant.

Both are checked when a choice is made, and only then. There is no other way for a choice to come
in, and none for one that is there to change, so this holds in every network that comes about.
-/

import PlanNetwork.Proofs.Probabilities
import PlanNetwork.Proofs.Program.Conduct

namespace PlanNetwork

open Network

variable {n m : Network} {L : Licence}

/-! ## Places of values -/

namespace ChoiceVariable

variable {x : ChoiceVariable} {value : String} {i : Nat}

/-- What is found at the place of a value is the value. -/
theorem getElem?_of_indexOf? (found : x.indexOf? value = some i) : x.domain[i]? = some value := by
  obtain ⟨inside, same, _⟩ := List.findIdx?_eq_some_iff_getElem.mp found
  rw [List.getElem?_eq_getElem inside, beq_iff_eq.mp same]

/-- If no value is there twice, then the place that is found is the one where the value stands. -/
theorem indexOf?_of_getElem? (distinct : x.domain.Nodup) (there : x.domain[i]? = some value) :
    x.indexOf? value = some i := by
  obtain ⟨inside, rfl⟩ := List.getElem?_eq_some_iff.mp there
  refine List.findIdx?_eq_some_iff_getElem.mpr ⟨inside, beq_self_eq_true _, fun j before same => ?_⟩
  have again : j = i := (distinct.getElem_inj_iff).mp (beq_iff_eq.mp same)
  exact absurd again (Nat.ne_of_lt before)

theorem indexOf?_eq_none_iff : x.indexOf? value = none ↔ value ∉ x.domain := by
  simp only [indexOf?, List.findIdx?_eq_none_iff, beq_eq_false_iff_ne]
  exact ⟨fun others there => others value there rfl, fun none _ there same => none (same ▸ there)⟩

end ChoiceVariable

/-! ## Entries beside values -/

namespace Choice

variable {c : Choice} {entries : Option (List Number)}

/-- No value is there twice, and a list of entries, if there is one, has one for each. -/
structure Aligned (c : Choice) : Prop where
  /-- The values differ. -/
  distinct : c.subject.domain.Nodup
  /-- There is one utility for each value. -/
  utilities : ∀ list ∈ c.utilities, list.length = c.subject.domain.length
  /-- There is one probability for each value. -/
  probabilities : ∀ list ∈ c.probabilities, list.length = c.subject.domain.length

/-- What is answered when a list of entries is asked for the one of a value. -/
structure Answers (c : Choice) (entries : Option (List Number)) (answer : String → Option Number) :
    Prop where
  /-- Where the value is found there is an entry. -/
  inside : ∀ {value i list}, c.subject.indexOf? value = some i → entries = some list →
    i < list.length
  /-- The answer for the value at a place is the entry at that place. -/
  entry : ∀ {value i list}, c.subject.domain[i]? = some value → entries = some list →
    ∃ within : i < list.length, answer value = some list[i]
  /-- There is no answer without a list. -/
  absent : entries = none → ∀ value, answer value = none
  /-- There is no answer for what is not a value of the choice. -/
  outside : ∀ {value}, value ∉ c.subject.domain → answer value = none

/-- Entries that stand beside the values are found. -/
theorem answers_entryOf? (distinct : c.subject.domain.Nodup)
    (beside : ∀ list ∈ entries, list.length = c.subject.domain.length) :
    c.Answers entries (c.entryOf? entries) := by
  have within {value : String} {i : Nat} {list : List Number}
      (there : c.subject.domain[i]? = some value) (given : entries = some list) :
      i < list.length := by
    rw [beside list given]
    exact (List.getElem?_eq_some_iff.mp there).1
  refine ⟨fun found given => within (ChoiceVariable.getElem?_of_indexOf? found) given,
    fun {value i list} there given => ⟨within there given, ?_⟩, fun none value => ?_,
    fun {value} other => ?_⟩
  · rw [entryOf?, ChoiceVariable.indexOf?_of_getElem? distinct there, given]
    exact List.getElem?_eq_getElem _
  · subst none
    rw [entryOf?]
    cases c.subject.indexOf? value <;> rfl
  · rw [entryOf?, ChoiceVariable.indexOf?_eq_none_iff.mpr other]
    rfl

/-- A value is assigned if it is one of the choice. -/
theorem assign_eq (c : Choice) (value : String) :
    c.assign value = if value ∈ c.subject.domain then .ok (.is c.subject value)
      else .error (.outsideChoice value c.subject.label) := by
  unfold assign
  split
  next i found =>
    rw [if_pos (List.mem_of_getElem? (ChoiceVariable.getElem?_of_indexOf? found))]
  next none => rw [if_neg (ChoiceVariable.indexOf?_eq_none_iff.mp none)]

end Choice

/-- The choice of a specification that is accepted has its entries beside its values. -/
theorem ChoiceSpec.aligned_toChoice {spec : ChoiceSpec} {tolerance : Number}
    {kind : Controllability} (accepted : spec.validate tolerance = .ok kind) (identity : Identity) :
    (spec.toChoice identity kind).Aligned := by
  obtain ⟨_, _, distinct, utilities, probabilities⟩ := validate_eq_ok_iff.mp accepted
  refine ⟨distinct, fun list given => ?_, fun list given => ?_⟩
  · exact beq_iff_eq.mp (utilities list given)
  · exact beq_iff_eq.mp (Bool.and_eq_true_iff.mp (probabilities list given)).1

/-! ## Networks -/

namespace Network

/-- The choices of a network have their entries beside their values. -/
def Aligned (n : Network) : Prop := ∀ {id : EventId} {c : Choice}, n.choice id = .ok c → c.Aligned

theorem aligned_empty (tolerance : Number) : (Network.empty tolerance).Aligned := by
  intro id c found
  obtain ⟨e, there, _⟩ := choice_eq_ok_iff.mp found
  cases there

/-- After a move a choice is one that was there before, or one that has just been accepted. -/
theorem Aligned.move (h : n.Aligned) (move : Move L n m) : m.Aligned := by
  intro id c found
  obtain ⟨e, there, carries⟩ := choice_eq_ok_iff.mp found
  rcases move.event_origin there with ⟨f, before, _, same⟩ | ⟨_, arrives⟩
  · exact h (choice_eq_ok_iff.mpr ⟨f, before, same ▸ carries⟩)
  · cases arrives with
    | identified _ plain | numbered _ _ plain =>
      rw [plain] at carries
      cases carries
    | choice _ accepted _ _ choice =>
      obtain rfl := Option.some.inj (carries.symm.trans choice)
      exact ChoiceSpec.aligned_toChoice accepted e.identity

theorem Aligned.course (h : n.Aligned) (course : Course L n m) : m.Aligned := by
  induction course with
  | refl => exact h
  | tail _ move ih => exact ih.move move

theorem Arises.aligned {conduct : NetworkConduct} (arises : n.Arises conduct) : n.Aligned :=
  arises.holds_network Aligned aligned_empty (fun course _ h => h.course course)
    (fun {_ n call} _ h => h.course (call.courses_run call.within_full n))

/-- In every network that can come about, by itself or in a program, whether what was done to it
last has succeeded or not, and for each choice there: where a value is found, each list that is
given has an entry, and the answer for the value at a place is the utility or the probability at
that place; without a list, or for what is no value of the choice, there is no answer. What is no
value cannot be assigned. -/
theorem lookups_are_exact
    (reachable : n.Reachable ∨ ∃ p : Program, p.Reachable .free ∧ p.network = n)
    {id : EventId} {c : Choice} (found : n.choice id = .ok c) :
    c.Answers c.utilities c.utilityOf? ∧ c.Answers c.probabilities c.probabilityOf? ∧
      ∀ value, c.assign value = if value ∈ c.subject.domain then .ok (.is c.subject value)
        else .error (.outsideChoice value c.subject.label) := by
  have aligned : c.Aligned := (arises_of_reachable reachable).aligned found
  exact ⟨Choice.answers_entryOf? aligned.distinct aligned.utilities,
    Choice.answers_entryOf? aligned.distinct aligned.probabilities, c.assign_eq⟩

/-- Rain is as likely as snow and sun together, and staying out in the sun is worth most. -/
def weather : ChoiceSpec where
  domain := ["rain", "snow", "sun"]
  kind := some .probabilistic
  utilities := some [.one, .zero, .ofDecimal false 2 0]
  probabilities :=
    some [.ofDecimal false 5 (-1), .ofDecimal false 25 (-2), .ofDecimal false 25 (-2)]

/-- The choice comes in with a branching. What follows is refused: the choice is made once more,
this time with a branch too few, and is undone. -/
theorem lookups_are_exact_weather :
    let p := (Program.ofConfig {}).afterCalls [⟨_, .addEpisode {}⟩, ⟨_, .addEpisode {}⟩,
      ⟨_, .addEpisode {}⟩,
      ⟨_, .observe weather [.episode ⟨0⟩, .episode ⟨1⟩, .episode ⟨2⟩] {}⟩,
      ⟨_, .observe weather [.episode ⟨0⟩, .episode ⟨1⟩] {}⟩]
    p.Reachable .free ∧ ∃ c, p.network.choice ⟨6⟩ = .ok c ∧
      c.subject.domain = ["rain", "snow", "sun"] ∧
      c.utilityOf? "sun" = some (.ofDecimal false 2 0) ∧
      c.probabilityOf? "snow" = some (.ofDecimal false 25 (-2)) ∧
      c.utilityOf? "hail" = none ∧ c.probabilityOf? "hail" = none ∧
      c.assign "hail" = .error (.outsideChoice "hail" "Choice_13") := by
  intro p
  have reachable : p.Reachable .free :=
    (reachable_of_config (by decide +kernel)).afterCalls fun _ _ => trivial
  have made : (p.network.choice ⟨6⟩).toOption.map
      (fun c => (c.subject.domain, c.subject.label, c.utilities, c.probabilities)) =
        some (weather.domain, "Choice_13", weather.utilities, weather.probabilities) := by
    decide +kernel
  obtain ⟨c, found, parts⟩ := Option.map_eq_some_iff.mp made
  have found := toOption_eq_some_iff.mp found
  simp only [Prod.mk.injEq] at parts
  obtain ⟨domain, label, utilities, probabilities⟩ := parts
  obtain ⟨utility, probability, assigned⟩ := lookups_are_exact (.inr ⟨p, reachable, rfl⟩) found
  have other : "hail" ∉ c.subject.domain := by
    rw [domain]
    decide
  obtain ⟨_, third⟩ := utility.entry (show c.subject.domain[2]? = some "sun" by rw [domain]; rfl)
    utilities
  obtain ⟨_, second⟩ := probability.entry
    (show c.subject.domain[1]? = some "snow" by rw [domain]; rfl) probabilities
  refine ⟨reachable, c, found, domain, by simpa using third, by simpa using second,
    utility.outside other, probability.outside other, ?_⟩
  rw [assigned, if_neg other, label]

end Network

end PlanNetwork
