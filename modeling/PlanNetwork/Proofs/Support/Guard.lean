/-
# What writes do to guards

A guard is known by its support, for the lists are made from it. A write either
replaces the support by another, or is refused and changes nothing.

So whatever is written to a guard, there is always a conjunction, and the lists
say of which variables each conjunction speaks.
-/

import PlanNetwork.Proofs.Support.Intersection
import PlanNetwork.Support.Guard

namespace PlanNetwork

namespace Guard

variable {g h : Guard} {s t : Support}

/-! ## Guards as supports -/

@[simp] theorem support_ofSupport (s : Support) : (ofSupport s).support = s := rfl

theorem eq_of_toRecord_eq (same : g.toRecord = h.toRecord) : g = h := by
  cases g
  cases h
  cases same
  rfl

/-- The lists of a guard are those of its support. -/
theorem eq_ofSupport (g : Guard) : g = ofSupport g.support := eq_of_toRecord_eq g.current.symm

theorem eq_of_support_eq (same : g.support = h.support) : g = h := by
  rw [g.eq_ofSupport, h.eq_ofSupport, same]

/-- A guard whose support has been replaced. -/
theorem after_eq {op : Write} (proper : op.Proper) (done : op g.toRecord = .ok () (.ofSupport s)) :
    g.after op proper = ofSupport s := by
  refine eq_of_support_eq ?_
  show (op.left g.toRecord).support = s
  rw [Write.left, done]
  rfl

theorem set_eq_ok_iff : g.set s = .ok h ↔ s.isEmpty = false ∧ h = ofSupport s := by
  unfold set write
  cases empty : s.isEmpty with
  | true => simp [Write.set_apply, empty]
  | false =>
    have done : Write.set s g.toRecord = .ok () (.ofSupport s) := by
      simp [Write.set_apply, empty]
    rw [done, after_eq _ done]
    simp [eq_comm]

theorem and_eq_ok_iff : g.and s = .ok h ↔ ∃ u, g.support.tryAnd s = .ok u ∧ h = ofSupport u := by
  unfold and write
  cases narrowed : g.support.tryAnd s with
  | error clash => simp [Write.and_apply, narrowed]
  | ok u =>
    have done : Write.and s g.toRecord = .ok () (.ofSupport u) := by
      simp [Write.and_apply, narrowed]
    rw [done, after_eq _ done]
    simp [eq_comm]

theorem and_eq_error_iff {clash : Clash} :
    g.and s = .error clash ↔ g.support.tryAnd s = .error clash := by
  unfold and write
  cases narrowed : g.support.tryAnd s <;> simp [Write.and_apply, narrowed]

theorem addLiteral_eq (g : Guard) (a : Literal) :
    g.addLiteral a = ofSupport (g.support.withLiteral a) := after_eq _ rfl

theorem setConjunction_eq (g : Guard) (c : Conjunction) :
    g.setConjunction c = ofSupport (.ofConjunction c) := after_eq _ rfl

theorem clear_eq (g : Guard) : g.clear = always := after_eq _ rfl

/-! ## Runs of writes -/

/-- What can be written to a guard. -/
inductive Change where
  /-- Another support. -/
  | set (s : Support)
  /-- A support to narrow it with. -/
  | and (s : Support)
  /-- A support to widen it with. -/
  | or (s : Support)
  /-- A literal to be added to every conjunction. -/
  | addLiteral (a : Literal)
  /-- One conjunction. -/
  | setConjunction (c : Conjunction)
  /-- Literals of which one has to hold. -/
  | setDisjunction (items : List Literal)
  /-- What always holds. -/
  | clear

/-- The write of a change. -/
def Change.write : Change → Write
  | set s => .set s
  | and s => .and s
  | or s => .or s
  | addLiteral a => .addLiteral a
  | setConjunction c => .setConjunction c
  | setDisjunction items => .setDisjunction items
  | clear => .clear

/-- What is kept after some changes, of which any may have been refused. -/
def Record.after (r : Record) (changes : List Change) : Record :=
  changes.foldl (fun r change => change.write.left r) r

/-- The variables are those of the literals of a conjunction, as far as their
values are selected in the wanted way. -/
structure Gathers (wanted : Controllability → Prop) (c : Conjunction)
    (kept : OrdSet ChoiceVariable) : Prop where
  /-- Every variable is that of a literal. -/
  sound : ∀ x ∈ kept.toList, wanted x.kind ∧ ∃ a ∈ c.toList, a.choice = x
  /-- The variable of every literal is there. -/
  complete : ∀ a ∈ c.toList, wanted a.choice.kind → ∃ x ∈ kept.toList, a.choice.same x = true

/-- What is kept can be read: something is kept, and the lists are right. -/
structure Record.Sound (r : Record) : Prop where
  /-- There is a conjunction. -/
  inhabited : r.support.toList ≠ []
  /-- In the order of the conjunctions, their variables that are controllable. -/
  decisions : List.Forall₂ (Gathers (· = .controllable)) r.support.toList r.decisions
  /-- In the order of the conjunctions, their other variables. -/
  observations : List.Forall₂ (Gathers (· ≠ .controllable)) r.support.toList r.observations
  /-- All variables are those of the lists. -/
  subjects : ∀ x : ChoiceVariable, (∃ y ∈ r.subjects.toList, x.same y = true) ↔
    ∃ kept ∈ r.decisions ++ r.observations, ∃ y ∈ kept.toList, x.same y = true

section Lists

variable {x y z : ChoiceVariable} {c : Conjunction} {observed : Bool}

theorem same_of_compare_eq (same : compare x y = .eq) : x.same y = true :=
  beq_iff_eq.mpr (Std.LawfulEqOrd.eq_of_compare same)

theorem mem_subjectsOf (member : x ∈ (Record.subjectsOf observed c).toList) :
    x.kind.isObservation = observed ∧ ∃ a ∈ c.toList, a.choice = x := by
  obtain ⟨listed, kind⟩ := List.mem_filter.mp (OrdSet.mem_of_mem_ofList member)
  exact ⟨beq_iff_eq.mp kind, List.mem_map.mp listed⟩

theorem exists_mem_subjectsOf {a : Literal} (member : a ∈ c.toList) :
    ∃ x ∈ (Record.subjectsOf a.choice.kind.isObservation c).toList, a.choice.same x = true := by
  have listed : a.choice ∈ (c.toList.map Literal.choice).filter
      (·.kind.isObservation == a.choice.kind.isObservation) :=
    List.mem_filter.mpr ⟨List.mem_map_of_mem member, beq_self_eq_true _⟩
  obtain ⟨x, there, same⟩ := OrdSet.exists_mem_ofList listed
  exact ⟨x, there, same_of_compare_eq same⟩

theorem isObservation_eq_false_iff {kind : Controllability} :
    kind.isObservation = false ↔ kind = .controllable := by
  cases kind <;> simp [Controllability.isObservation]

theorem isObservation_eq_true_iff {kind : Controllability} :
    kind.isObservation = true ↔ kind ≠ .controllable := by
  cases kind <;> simp [Controllability.isObservation]

theorem same_trans (first : x.same y = true) (second : y.same z = true) : x.same z = true :=
  beq_iff_eq.mpr ((beq_iff_eq.mp first).trans (beq_iff_eq.mp second))

/-- The lists of a condition are right. -/
theorem Record.sound_ofSupport (inhabited : s.toList ≠ []) : (ofSupport s).Sound where
  inhabited := inhabited
  decisions := by
    refine List.forall₂_map_right_iff.mpr (List.forall₂_same.mpr fun c _ => ⟨?_, ?_⟩)
    · intro x member
      obtain ⟨kind, there⟩ := mem_subjectsOf member
      exact ⟨isObservation_eq_false_iff.mp kind, there⟩
    · intro a member kind
      have there := exists_mem_subjectsOf member
      rwa [isObservation_eq_false_iff.mpr kind] at there
  observations := by
    refine List.forall₂_map_right_iff.mpr (List.forall₂_same.mpr fun c _ => ⟨?_, ?_⟩)
    · intro x member
      obtain ⟨kind, there⟩ := mem_subjectsOf member
      exact ⟨isObservation_eq_true_iff.mp kind, there⟩
    · intro a member kind
      have there := exists_mem_subjectsOf member
      rwa [isObservation_eq_true_iff.mpr kind] at there
  subjects x := by
    constructor
    · rintro ⟨y, member, same⟩
      obtain ⟨c, inside, listed⟩ := List.mem_flatMap.mp (OrdSet.mem_of_mem_ofList member)
      obtain ⟨a, there, rfl⟩ := List.mem_map.mp listed
      obtain ⟨z, kept, again⟩ := exists_mem_subjectsOf there
      refine ⟨_, ?_, z, kept, same_trans same again⟩
      cases a.choice.kind.isObservation with
      | false => exact List.mem_append_left _ (List.mem_map_of_mem inside)
      | true => exact List.mem_append_right _ (List.mem_map_of_mem inside)
    · rintro ⟨kept, listed, y, member, same⟩
      obtain ⟨c, inside, a, there, rfl⟩ : ∃ c ∈ s.toList, ∃ a ∈ c.toList, a.choice = y := by
        rcases List.mem_append.mp listed with listed | listed <;>
        · obtain ⟨c, inside, rfl⟩ := List.mem_map.mp listed
          exact ⟨c, inside, (mem_subjectsOf member).2⟩
      have spoken : a.choice ∈ s.toList.flatMap fun c => c.toList.map Literal.choice :=
        List.mem_flatMap.mpr ⟨c, inside, List.mem_map_of_mem there⟩
      obtain ⟨z, found, again⟩ := OrdSet.exists_mem_ofList spoken
      exact ⟨z, found, same_trans same (same_of_compare_eq again)⟩

end Lists

/-- One change. It brings another support that has a conjunction, or it is refused
and leaves everything as it was. -/
theorem Change.write_apply (change : Change) {r : Record} (inhabited : r.support.toList ≠ []) :
    (∃ s, s.toList ≠ [] ∧ change.write r = .ok () (.ofSupport s)) ∨
      ∃ clash, change.write r = .error clash r := by
  have some {s : Support} (filled : s.isEmpty = false) : s.toList ≠ [] := fun none => by
    rw [Support.isEmpty_iff.mpr none] at filled
    cases filled
  obtain ⟨c, member⟩ := List.exists_mem_of_ne_nil _ inhabited
  cases change with
  | set s =>
    simp only [Change.write, Write.set_apply]
    cases empty : s.isEmpty with
    | true => exact .inr ⟨_, rfl⟩
    | false => exact .inl ⟨s, some empty, rfl⟩
  | and s =>
    simp only [Change.write, Write.and_apply]
    cases narrowed : r.support.tryAnd s with
    | error clash => exact .inr ⟨clash, rfl⟩
    | ok t =>
      obtain ⟨filled, rfl⟩ := Support.tryAnd_eq_ok_iff.mp narrowed
      exact .inl ⟨_, some filled, rfl⟩
  | or s => exact .inl ⟨_, List.ne_nil_of_mem (OrdSet.mem_union_left member), rfl⟩
  | addLiteral a =>
    have added : c.insert a ∈ r.support.toList.map (·.insert a) := List.mem_map_of_mem member
    obtain ⟨d, there, _⟩ := OrdSet.exists_mem_ofList added
    exact .inl ⟨_, List.ne_nil_of_mem there, rfl⟩
  | setConjunction c => exact .inl ⟨.ofConjunction c, List.cons_ne_nil _ _, rfl⟩
  | setDisjunction items =>
    refine .inl ⟨_, ?_, Write.setDisjunction_apply⟩
    cases empty : (Support.ofList (items.map .single)).isEmpty with
    | true => exact List.cons_ne_nil _ _
    | false => exact some empty
  | clear => exact .inl ⟨.always, List.cons_ne_nil _ _, rfl⟩

/-- What one change leaves behind is sound. -/
theorem Record.Sound.change {r : Record} (h : r.Sound) (change : Change) :
    (change.write.left r).Sound := by
  rcases change.write_apply h.inhabited with ⟨s, inhabited, done⟩ | ⟨clash, refused⟩
  · rw [Write.left, done]
    exact Record.sound_ofSupport inhabited
  · rw [Write.left, refused]
    exact h

theorem Record.Sound.after {r : Record} (h : r.Sound) (changes : List Change) :
    (r.after changes).Sound := by
  induction changes generalizing r with
  | nil => exact h
  | cons change rest ih => exact ih (h.change change)

/-- Guards stay sound. Whatever has been written to a new guard, refused or not,
there is a conjunction, for each conjunction the lists have the variables that are
controllable and the others, all variables are those of the lists, and if one more
change is refused then everything is as it was. -/
theorem sound_after_changes (changes : List Change) :
    (Record.always.after changes).Sound ∧ ∀ (change : Change) (clash : Clash) (r : Record),
      change.write (Record.always.after changes) = .error clash r →
        r = Record.always.after changes := by
  have fresh : Record.always.Sound := Record.sound_ofSupport (List.cons_ne_nil Conjunction.always [])
  have sound := fresh.after changes
  refine ⟨sound, fun change clash r refused => ?_⟩
  rcases change.write_apply sound.inhabited with ⟨s, _, done⟩ | ⟨clash', same⟩
  · cases done.symm.trans refused
  · exact (EStateM.Result.error.inj (same.symm.trans refused)).2.symm

/-- A decision between two values. -/
def coin : ChoiceVariable := ⟨0, "coin", .controllable, ["heads", "tails"]⟩

/-- Narrowing a guard from one value to the other is refused, and what is kept is as
before. -/
theorem sound_after_changes_other_value : ∃ clash r,
    (Change.and (.ofLiteral (.is coin "tails"))).write
        (Record.always.after [.setConjunction (.single (.is coin "heads"))]) = .error clash r ∧
      r = Record.always.after [.setConjunction (.single (.is coin "heads"))] := by
  have refused : (Change.and (.ofLiteral (.is coin "tails"))).write
      (Record.always.after [.setConjunction (.single (.is coin "heads"))]) = .error _ _ := rfl
  exact ⟨_, _, refused, (sound_after_changes _).2 _ _ _ refused⟩

end Guard

end PlanNetwork
