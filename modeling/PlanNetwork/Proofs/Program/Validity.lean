/-
# Constraints stay valid

What a constraint says is checked when it is made, and kept. An episode that gets another
duration gets a new constraint, which is checked as any other. Only merging gives a
constraint other bounds. It does so to constraints that the executive meets, which have no
distribution that would have to agree, and it has checked that the bounds are in order. A
simplification that is refused half-way has narrowed some constraints and not others, and
each is valid by itself.
-/

import PlanNetwork.Proofs.Number
import PlanNetwork.Proofs.Program.Reachability

namespace PlanNetwork

variable {n : Network}

namespace Network

theorem Reachable.valid (h : n.Reachable) : n.Valid := by
  induction h with
  | empty tolerance => exact valid_empty tolerance
  | @count n later more _ ih =>
    have change : Change (fun _ => True) n (n.withSerial later) := .count n more
    exact ih.change change
  | @call n _ call _ ih =>
    exact ih.evolution (call.evolves_run (Call.edit call).brings_writing n)

/-- In every network that can come about, by itself or in a program, whether what was done
to it last has succeeded or not: the bounds of each temporal constraint are numbers and in
order, it has no distribution if the executive meets it, that of its very bounds if no more
is known, and otherwise a valid one which gives its bounds; each state constraint says
something of each of its variables, which are there and none twice, and gives to each a
value that it can take; and the risk of each chance constraint is a probability. -/
theorem constraints_stay_valid
    (reachable : n.Reachable ∨ ∃ p : Program, p.Reachable .free ∧ p.network = n) :
    (∀ c ∈ n.temporals, c.bounds.lower.isNaN = false ∧ c.bounds.upper.isNaN = false ∧
      c.bounds.Valid) ∧
    (∀ c ∈ n.states, c.Valid n) ∧ ∀ c ∈ n.chances, c.Valid := by
  have valid : n.Valid := by
    rcases reachable with built | ⟨p, built, rfl⟩
    · exact built.valid
    · exact built.valid
  refine ⟨fun c member => ?_, valid.state, valid.chance⟩
  have bounds := valid.temporal c member
  obtain ⟨lower, upper⟩ := Number.isNaN_eq_false_of_le bounds.ordered
  exact ⟨lower, upper, bounds⟩

/-- The plan is an episode that may take any time. A constraint of the user's allows at
most a unit of time, and merging narrows the duration of the episode to that. Two more
constraints are for the environment to meet, and there are constraints on a state variable
and on the risk that one of them is violated. -/
theorem constraints_stay_valid_merged :
    let p := (Program.ofConfig {}).afterCalls [⟨_, .addEpisode {}⟩, ⟨_, .setPlan (.episode ⟨0⟩)⟩,
      ⟨_, .addConstraint ⟨0⟩ ⟨1⟩ { lower := some .zero, upper := some .one }⟩,
      ⟨_, .addConstraint ⟨0⟩ ⟨1⟩ { kind := .bounded, lower := some .zero, upper := some .one }⟩,
      ⟨_, .addConstraint ⟨0⟩ ⟨1⟩
        { kind := .probabilistic, distribution := some (.gaussian .one .zero) }⟩,
      ⟨_, .addQuantity "door" (.finite [.symbol "open", .symbol "shut"])⟩,
      ⟨_, .edit (.addAssignmentConstraint [⟨0⟩] [.symbol "shut"])⟩,
      ⟨_, .addChance [.state ⟨0⟩] .one⟩, ⟨_, .simplify⟩]
    p.Reachable .free ∧ p.network.states.size = 1 ∧ p.network.chances.size = 1 ∧
      p.network.temporals.map (·.bounds) = #[⟨.controllable, .zero, .one, none⟩,
        ⟨.controllable, .zero, .one, none⟩, ⟨.bounded, .zero, .one, some (.unknown .zero .one)⟩,
        ⟨.probabilistic, .infinite true, .infinite false, some (.gaussian .one .zero)⟩] ∧
      (∀ c ∈ p.network.temporals, c.bounds.lower.isNaN = false ∧ c.bounds.upper.isNaN = false ∧
        c.bounds.Valid) ∧
      (∀ c ∈ p.network.states, c.Valid p.network) ∧ ∀ c ∈ p.network.chances, c.Valid := by
  intro p
  have reachable : p.Reachable .free :=
    (reachable_of_config (by decide +kernel)).afterCalls fun _ _ => trivial
  exact ⟨reachable, by decide +kernel, by decide +kernel, by decide +kernel,
    constraints_stay_valid (.inr ⟨p, reachable, rfl⟩)⟩

end Network

end PlanNetwork
