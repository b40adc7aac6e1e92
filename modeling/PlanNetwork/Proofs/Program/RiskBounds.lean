/-
# What chance constraints range over, after a simplification

A chance constraint keeps the handles of what it ranges over, and a simplification
leaves it alone. So it may range over a constraint that has been merged away. Such
a constraint said nothing, for it related an event to itself, or an older one has
stayed in its place, which relates the same events and allows nothing that the other
one did not allow. Constraints that are not for the executive to meet are never
merged away.
-/

import PlanNetwork.Proofs.Program.NormalForm

namespace PlanNetwork

open Network

variable {p q : Program} {n m : Network} {id : TemporalId}

namespace Network

/-- The chance constraint ranges over the temporal constraint, itself or through
another one. -/
inductive RangesOver (n : Network) : ChanceId → TemporalId → Prop where
  /-- The constraint is one of those that it bounds the risk of. -/
  | direct {chance : ChanceId} {c : ChanceConstraint} {id : TemporalId}
      (found : n.chance chance = .ok c) (member : .temporal id ∈ c.constraints) :
      n.RangesOver chance id
  /-- One of those is a chance constraint that ranges over it. -/
  | through {chance other : ChanceId} {c : ChanceConstraint} {id : TemporalId}
      (found : n.chance chance = .ok c) (member : .chance other ∈ c.constraints)
      (rest : n.RangesOver other id) : n.RangesOver chance id

theorem RangesOver.congr {chance : ChanceId} (same : m.chances = n.chances)
    (h : n.RangesOver chance id) : m.RangesOver chance id := by
  induction h with
  | direct found member => exact .direct (by rwa [Network.chance, same]) member
  | through found member _ ih => exact .through (by rwa [Network.chance, same]) member ih

end Network

/-! ## What leaves chance constraints alone -/

namespace Edit

open Attempt

theorem leaves_chances_atomically {α : Type} {op : Edit α} (h : op.Leaves Network.chances) :
    (atomically op).Leaves Network.chances := by
  intro n a m done
  rcases of_atomically_eq_ok done with plain | ⟨k, inner, rfl⟩
  · exact h n a m plain
  · exact h n.checkpoint a k inner

theorem leaves_chances_refreshTemporal (id : TemporalId) :
    (refreshTemporal id).Leaves Network.chances := by
  refine (leaves_read _).bind fun _ => (leaves_read _).bind fun _ => (leaves_read _).bind fun g => ?_
  refine (leaves_modify fun n => ?_).bind fun _ => (leaves_ofExcept _).bind fun _ =>
    leaves_modify fun _ => rfl
  unfold Network.note
  split
  · rfl
  · split <;> rfl

theorem leaves_chances_setBounds (id : TemporalId) (lower upper : Number) :
    (setBounds id lower upper).Leaves Network.chances :=
  (leaves_read _).bind fun _ => (leaves_ofExcept _).bind fun _ => leaves_modify fun _ => rfl

theorem leaves_chances_addDuration (start finish : EventId) (spec : DurationSpec) :
    (addDuration start finish spec).Leaves Network.chances := by
  intro n id m done
  obtain ⟨_, _, _, _, _, _, _, _, _, _, rfl⟩ := addDuration_eq_ok_iff.mp done
  rfl

theorem leaves_chances_replacementDurations (ids : List EpisodeId) :
    (replacementDurations ids).Leaves Network.chances := by
  induction ids with
  | nil => exact leaves_pure _
  | cons id rest ih =>
    exact (leaves_read _).bind fun _ => (leaves_chances_addDuration _ _ _).bind fun _ =>
      ih.bind fun _ => leaves_pure _

theorem leaves_chances_detachTemporal (id : TemporalId) :
    (detachTemporal id).Leaves Network.chances := by
  refine (leaves_read _).bind fun _ => (leaves_chances_replacementDurations _).bind fun renewals =>
    Leaves.bind ?_ fun _ => ?_
  · exact leaves_modify fun _ => rfl
  · refine leaves_modify fun n => ?_
    obtain ⟨_, frame, _⟩ := renewals_frame renewals n
    rw [frame]

end Edit

/-- The chance constraints that are registered, among all that there are. -/
def Program.risks (p : Program) : OrdSet ChanceId × Array ChanceConstraint :=
  (p.chances, p.network.chances)

namespace Build

open Attempt

theorem leaves_risks_onNetwork {α : Type} {op : Edit α} (h : op.Leaves Network.chances) :
    (onNetwork op).Leaves Program.risks := by
  intro p a q done
  obtain ⟨m, inner, rfl⟩ := focus_eq_ok_iff.mp done
  exact congrArg (p.chances, ·) (h _ a m inner)

theorem leaves_risks_register (id : EpisodeId) : (register id).Leaves Program.risks := by
  refine (leaves_read _).bind fun _ => leaves_get.bind fun p => ?_
  split
  · exact leaves_modify fun _ => rfl
  · split
    · exact leaves_pure _
    · exact leaves_throw _

theorem leaves_risks_traverse : traverse.Leaves Program.risks :=
  (leaves_read _).bind fun _ => (leaves_each leaves_risks_register _).bind fun _ =>
    leaves_get.bind fun _ => (leaves_risks_onNetwork (Edit.leaves_chances_atomically
      (leaves_each Edit.leaves_chances_refreshTemporal _))).bind fun _ => leaves_pure _

theorem leaves_risks_view : view.Leaves Program.risks := by
  refine leaves_get.bind fun p => ?_
  split
  · exact leaves_pure _
  · refine leaves_risks_traverse.bind fun _ => Leaves.bind ?_ fun _ => leaves_pure _
    exact leaves_modify fun _ => rfl

theorem leaves_risks_constraints : constraints.Leaves Program.risks :=
  leaves_risks_view.bind fun _ => leaves_get.bind fun _ => leaves_pure _

theorem leaves_risks_narrowBounds (entry : TemporalId × (Number × Number)) :
    (narrowBounds entry).Leaves Program.risks :=
  leaves_risks_onNetwork (Edit.leaves_chances_setBounds _ _ _)

theorem leaves_risks_removeConstraint (id : TemporalId) :
    (removeConstraint id).Leaves Program.risks :=
  (leaves_risks_onNetwork (Edit.leaves_chances_atomically
    (Edit.leaves_chances_detachTemporal id))).bind fun _ => leaves_modify fun _ => rfl

/-- Neither registered chance constraints change nor any others. -/
theorem leaves_risks_simplify : simplify.Leaves Program.risks :=
  leaves_risks_constraints.bind fun _ => (leaves_read _).bind fun _ =>
    (leaves_each leaves_risks_narrowBounds _).bind fun _ =>
      (leaves_each leaves_risks_removeConstraint _).bind fun _ => leaves_modify fun _ => rfl

end Build

/-! ## What is left of what they range over -/

/-- A chance constraint that is registered ranges over the temporal constraint. -/
def Program.Risks (p : Program) (id : TemporalId) : Prop :=
  ∃ chance ∈ p.chances.toList, p.network.RangesOver chance id

theorem Program.risks_congr (same : q.risks = p.risks) : q.Risks id ↔ p.Risks id := by
  obtain ⟨registered, all⟩ := Prod.mk.inj same
  unfold Risks
  rw [registered]
  refine exists_congr fun chance => and_congr_right fun _ => ⟨.congr all.symm, .congr all⟩

/-- A constraint that was read before is read again, or nothing is lost with it. -/
inductive Survives (n m : Network) (found found' : OrdSet TemporalId) (id : TemporalId) : Prop where
  /-- It is still read. -/
  | kept (member : id ∈ found'.toList)
  /-- It related an event to itself, and said nothing. -/
  | idle (loop : Merge.Idle n id)
  /-- An older one that was read before is read again, and stands for it. -/
  | merged {older : TemporalId} (before : older ∈ found.toList) (after : older ∈ found'.toList)
      (less : older.index < id.index) (controllable : n.Controllable id)
      (same : n.constrainSameEvents older id = .ok true)
      (within : ∀ c d, m.temporal older = .ok c → n.temporal id = .ok d →
        ∀ t, c.bounds.Allow t → d.bounds.Allow t)

theorem Clears.survives {merge : Merge} {found found' : OrdSet TemporalId}
    (h : Clears merge found found' n m) (inside : id ∈ found.toList) :
    Survives n m found found' id := by
  by_cases gone : id ∈ merge.removed.toList
  swap
  · exact .kept (h.left id inside gone)
  have new : id ∉ Merge.empty.removed.toList := by simp [Merge.empty]
  rcases Merge.exists_represents h.ordered found.nodup (fun _ _ => rfl) h.planned gone new with
    idle | ⟨a, order, stays, stands⟩
  · exact .idle idle
  have before : a ∈ found.toList := order.subset (by simp)
  have pair : [a, id].Pairwise fun x y => compare x y = .lt := found.increasing.sublist order
  have less : compare a id = .lt := (List.pairwise_cons.mp pair).1 id (List.mem_singleton_self id)
  refine .merged before (h.left a before stays) (Nat.compare_eq_lt.mp less)
    (stands.controllable.of_same stands.same) stands.same fun c d here there t => ?_
  obtain ⟨c', before'⟩ := h.there a before
  obtain rfl := Except.ok.inj ((h.temporal before').symm.trans here)
  exact stands.within c' d before' there t

open Build

/-- A simplification that succeeds changes nothing about what registered chance
constraints range over. Of the temporal constraints among this that were read
before, those that are not read any more said nothing, or an older one stands for
them. The last traversal, if it is kept, has to be one of the program itself, as it
always is outside of fragments. -/
theorem Program.simplify_loses_no_risk (reachable : p.Reachable .free)
    (own : ∀ t, p.traversal = some t →
      Traversal.collect p.network p.plan p.userConstraints = .ok t)
    {u : Unit} (simplified : simplify p = .ok u q) :
    ∃ found p₁ found' q₁, constraints p = .ok found p₁ ∧ constraints q = .ok found' q₁ ∧
      (∀ id, q.Risks id ↔ p.Risks id) ∧
      ∀ id, q.Risks id → id ∈ found.toList →
        Survives p₁.network q₁.network found found' id := by
  obtain ⟨found, p₁, merge, found', q₁, viewed, viewed', clears, _⟩ :=
    reachable.clears own simplified
  have same := leaves_risks_simplify p u q simplified
  exact ⟨found, p₁, found', q₁, viewed, viewed', fun _ => risks_congr same,
    fun _ _ inside => clears.survives inside⟩

/-! ## Two constraints on the same events

The risk of violating the second one is bounded.
-/

/-- The program with the two constraints. -/
def Program.risky : Program :=
  (Program.ofConfig {}).afterCalls [
    ⟨_, .addEvent⟩,
    ⟨_, .addEvent⟩,
    ⟨_, .addConstraint ⟨0⟩ ⟨1⟩ .unconstrained⟩,
    ⟨_, .addConstraint ⟨0⟩ ⟨1⟩ .unconstrained⟩,
    ⟨_, .addChance [.temporal ⟨1⟩] .zero⟩]

theorem Program.reached_risky : Reached .free risky [] :=
  (reached_of_config (by decide +kernel)).afterCalls fun _ _ => trivial

theorem Program.simplify_risky : ∃ u, simplify risky = .ok u (simplify.after risky) :=
  Attempt.exists_eq_ok_after _ _ (by decide +kernel)

/-- The first one stands for the second one. -/
theorem Program.simplify_loses_no_risk_risky :
    risky.Reachable .free ∧ (∀ t, risky.traversal = some t →
      Traversal.collect risky.network risky.plan risky.userConstraints = .ok t) ∧
    ∃ u q, simplify risky = .ok u q ∧
      ∃ found p₁ found' q₁, constraints risky = .ok found p₁ ∧ constraints q = .ok found' q₁ ∧
        (∀ id, q.Risks id ↔ risky.Risks id) ∧
        ∀ id, q.Risks id → id ∈ found.toList →
          Survives p₁.network q₁.network found found' id := by
  have reachable : risky.Reachable .free := ⟨[], reached_risky⟩
  have own (t : Traversal) (cached : risky.traversal = some t) :=
    reached_risky.collected_outside cached
  obtain ⟨u, simplified⟩ := simplify_risky
  exact ⟨reachable, own, u, _, simplified, simplify_loses_no_risk reachable own simplified⟩

theorem Program.chances_risky : risky.chances.toList = [⟨0⟩] := by decide +kernel

theorem Program.constraints_risky :
    risky.network.chances[0]?.map (·.constraints) = some [.temporal ⟨1⟩] := by
  decide +kernel

theorem Program.risks_risky_iff : risky.Risks id ↔ id = ⟨1⟩ := by
  obtain ⟨c, found, ranges⟩ := Option.map_eq_some_iff.mp constraints_risky
  have found : risky.network.chance ⟨0⟩ = .ok c := lookup_eq_ok_iff.mpr found
  constructor
  · rintro ⟨chance, registered, ranging⟩
    rw [chances_risky] at registered
    obtain rfl := List.mem_singleton.mp registered
    cases ranging with
    | direct found' member =>
      obtain rfl := Except.ok.inj (found.symm.trans found')
      simpa [ranges] using member
    | through found' member _ =>
      obtain rfl := Except.ok.inj (found.symm.trans found')
      simp [ranges] at member
  · rintro rfl
    exact ⟨⟨0⟩, by simp [chances_risky], .direct found (by simp [ranges])⟩

/-- Before the simplification what is ranged over is read, and after it it is not. -/
theorem Program.simplify_strands_risk_risky :
    risky.Reachable .free ∧ ∃ u q found p₁ found' q₁, simplify risky = .ok u q ∧
      constraints risky = .ok found p₁ ∧ constraints q = .ok found' q₁ ∧
      (∀ id, risky.Risks id → id ∈ found.toList) ∧
      ∃ id, q.Risks id ∧ id ∉ found'.toList := by
  obtain ⟨u, simplified⟩ := simplify_risky
  obtain ⟨found, viewed, before⟩ := Build.constraints_of_result? (by decide +kernel :
    (constraints.result? risky).map OrdSet.toList = some [⟨0⟩, ⟨1⟩])
  obtain ⟨found', viewed', after⟩ := Build.constraints_of_result? (by decide +kernel :
    (constraints.result? (simplify.after risky)).map OrdSet.toList = some [⟨0⟩])
  have same := leaves_risks_simplify _ _ _ simplified
  refine ⟨⟨[], reached_risky⟩, u, _, found, _, found', _, simplified, viewed, viewed',
    fun id ranging => ?_, ⟨1⟩, (risks_congr same).mpr (risks_risky_iff.mpr rfl), ?_⟩
  · rw [risks_risky_iff.mp ranging, before]
    decide
  · rw [after]
    decide

end PlanNetwork
