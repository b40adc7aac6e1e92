/-
# What merging leaves behind

Every constraint that is not removed has been compared with all later ones on
the way, and those that could have been merged with it are gone. So nothing is
left to be merged, and merging what is left changes nothing. If other constraints
come behind those that are left, then these are all that can still be removed,
and bounds are narrowed only by them.

A constraint that is removed either said nothing, or an older one that stays
stands for it: it applies under the same support to the same events, and allows
nothing that the removed one did not allow.
-/

import PlanNetwork.Proofs.Program.Merging

namespace PlanNetwork

open Network

namespace Number

variable {x y : Number}

/-- What can be compared at all is equal to itself. -/
theorem equals_self (h : x.isNaN = false) : x.equals x = true := by
  cases position : x.position with
  | none => simp [isNaN, position] at h
  | some a => exact equals_iff.mpr ⟨a, position, position⟩

end Number

namespace Network

variable {n : Network} {a b : TemporalId}

/-- Constraints that relate the same events are of one kind. -/
theorem Controllable.of_same (h : n.Controllable a) (same : n.constrainSameEvents a b = .ok true) :
    n.Controllable b := by
  obtain ⟨c, found, kind⟩ := h
  obtain ⟨d, found', _, _, kinds, _⟩ := of_constrainSameEvents found same
  exact ⟨d, found', kinds.symm.trans kind⟩

end Network

namespace Merge

variable {n : Network} {m m' : Merge} {id x : TemporalId} {ids later : List TemporalId}
  {c : TemporalConstraint} {stays : TemporalId → Prop}

/-- The first constraint has nothing to do with the second: it is not for the
executive to meet, or the two do not relate the same events. -/
def Alone (n : Network) (a b : TemporalId) : Prop :=
  ∀ c, n.temporal a = .ok c → c.bounds.kind = .controllable →
    n.constrainSameEvents a b = .ok false

/-- Of some constraints, oldest first, those that stay are not to be merged. -/
structure Normal (n : Network) (stays : TemporalId → Prop) (ids : List TemporalId) : Prop where
  /-- None of them relates an event to itself. -/
  loops : ∀ a ∈ ids, stays a → n.isSelfLoop a = .ok false
  /-- None of them has anything to do with a later one. -/
  alone : ids.Pairwise fun a b => stays a → stays b → Alone n a b

theorem Normal.tail (h : Normal n stays (id :: later)) : Normal n stays later :=
  ⟨fun a member => h.loops a (List.mem_cons_of_mem _ member), (List.pairwise_cons.mp h.alone).2⟩

theorem Normal.head (h : Normal n stays (id :: later)) :
    ∀ b ∈ later, stays id → stays b → Alone n id b :=
  (List.pairwise_cons.mp h.alone).1

theorem Alone.not_same {a b : TemporalId} (h : Alone n a b) (found : n.temporal a = .ok c)
    (kind : c.bounds.kind = .controllable) : n.constrainSameEvents a b ≠ .ok true := by
  rw [h c found kind]
  simp

/-! ## Intersecting again -/

/-- What was removed stays removed, and what is not removed on the way does not
relate the same events. -/
theorem same_of_intersect {bounds : Number × Number} {removed : OrdSet TemporalId}
    {result : (Number × Number) × OrdSet TemporalId}
    (done : intersect n id c bounds removed later = .ok result) :
    (∀ y ∈ removed.toList, y ∈ result.2.toList) ∧
      ∀ y ∈ later, y ∉ result.2.toList → n.constrainSameEvents id y = .ok false := by
  induction later generalizing bounds removed with
  | nil =>
    obtain rfl := Except.ok.inj done
    exact ⟨fun _ old => old, nofun⟩
  | cons other rest ih =>
    cases kept : removed.contains other with
    | true =>
      rw [intersect, if_pos kept] at done
      obtain ⟨older, others⟩ := ih done
      have gone := older other (by simpa using kept)
      exact ⟨older, List.forall_mem_cons.mpr ⟨fun left => absurd gone left, others⟩⟩
    | false =>
      obtain ⟨answer, same, rest'⟩ := bind_eq_ok_iff.mp ((if_neg (by simp [kept])).symm.trans done)
      cases answer with
      | false =>
        obtain ⟨older, others⟩ := ih rest'
        exact ⟨older, List.forall_mem_cons.mpr ⟨fun _ => same, others⟩⟩
      | true =>
        obtain ⟨second, found, _⟩ := bind_eq_ok_iff.mp rest'
        rw [intersect_cons kept same found] at done
        dsimp only at done
        split at done
        next => cases done
        next =>
          obtain ⟨older, others⟩ := ih done
          have gone := older other (by simp)
          exact ⟨fun y old => older y (by simp [old]),
            List.forall_mem_cons.mpr ⟨fun left => absurd gone left, others⟩⟩

/-- If nothing relates the same events, nothing happens. -/
theorem intersect_of_alone {bounds : Number × Number} {removed : OrdSet TemporalId}
    (alone : ∀ y ∈ later, y ∉ removed.toList → n.constrainSameEvents id y = .ok false) :
    intersect n id c bounds removed later = .ok (bounds, removed) := by
  induction later with
  | nil => rfl
  | cons other rest ih =>
    obtain ⟨first, others⟩ := List.forall_mem_cons.mp alone
    cases kept : removed.contains other with
    | true => rw [intersect, if_pos kept, ih others]
    | false =>
      have same := first (by simpa using kept)
      rw [intersect, if_neg (by simp [kept]), same]
      exact ih others

/-! ## Settling again -/

/-- The constraint relates an event to itself and says nothing. -/
def Idle (n : Network) (id : TemporalId) : Prop :=
  n.isSelfLoop id = .ok true ∧ ∃ c, n.temporal id = .ok c ∧ c.bounds.kind = .controllable ∧
    c.bounds.lower.equals .zero = true

/-- A constraint from an event to itself is removed. -/
theorem loop_of_settle (done : settle n m id later = .ok m') :
    n.isSelfLoop id = .ok false ∨
      Idle n id ∧ m' = { m with removed := m.removed.insert id } := by
  obtain ⟨c, found, done⟩ := bind_eq_ok_iff.mp done
  obtain ⟨answer, self, done⟩ := bind_eq_ok_iff.mp done
  cases answer with
  | false => exact .inl self
  | true =>
    by_cases harmless : c.bounds.kind = .controllable ∧ c.bounds.lower.equals .zero = true
    · obtain rfl := Except.ok.inj ((if_pos harmless).symm.trans done)
      exact .inr ⟨⟨self, c, found, harmless⟩, rfl⟩
    · obtain ⟨_, ⟨⟩, _⟩ := bind_eq_ok_iff.mp ((if_neg harmless).symm.trans done)

/-- A constraint that has nothing to do with the later ones is left as it is. -/
theorem settle_of_alone (ordered : n.Ordered) (found : n.temporal id = .ok c)
    (loop : n.isSelfLoop id = .ok false)
    (alone : ∀ y ∈ later, y ∉ m.removed.toList → Alone n id y) :
    settle n m id later = .ok m := by
  have bounded := Number.isNaN_eq_false_of_le (ordered.temporal found)
  unfold settle
  simp only [found, loop, bind, Except.bind, Bool.false_eq_true, if_false]
  by_cases kind : c.bounds.kind = .controllable
  · rw [if_neg (not_not.mpr kind), intersect_of_alone fun y member left =>
      alone y member left c found kind]
    simp only [Number.equals_self bounded.1, Number.equals_self bounded.2, Bool.and_self, if_true]
    rfl
  · rw [if_pos kind]
    rfl

/-- A constraint that is left has nothing to do with the later ones that are left. -/
theorem Settles.alone (found : n.temporal id = .ok c) (h : Settles n m id later c m')
    (left : id ∉ m'.removed.toList) : ∀ y ∈ later, y ∉ m'.removed.toList → Alone n id y := by
  intro y member still c' found' kind
  obtain rfl := Except.ok.inj (found.symm.trans found')
  cases h with
  | loop => exact absurd (by simp) left
  | left differs => exact absurd kind differs
  | kept _ merged => exact (same_of_intersect merged).2 y member still
  | narrowed _ merged => exact (same_of_intersect merged).2 y member still

/-- The bounds are what a constraint has in common with some others that do not stay. -/
structure Cuts (n : Network) (stays : TemporalId → Prop) (ids : List TemporalId)
    (id : TemporalId) (bounds : Number × Number) (others : List TemporalId) : Prop where
  /-- There are others. -/
  nonempty : others ≠ []
  /-- They relate the same events, and do not stay. -/
  same : ∀ d ∈ others, d ∈ ids ∧ ¬ stays d ∧ n.constrainSameEvents id d = .ok true
  /-- What is allowed is what all of them allow. -/
  allows : ∀ c, n.temporal id = .ok c → ∀ t, Allows bounds t ↔
    c.bounds.Allow t ∧ ∀ d ∈ others, ∀ c', n.temporal d = .ok c' → c'.bounds.Allow t

theorem Cuts.cons {bounds : Number × Number} {others : List TemporalId}
    (h : Cuts n stays later x bounds others) : Cuts n stays (id :: later) x bounds others :=
  { h with same := fun d member => (h.same d member).imp_left (List.mem_cons_of_mem id) }

section New

variable (ordered : n.Ordered) (behind : ∀ y ∈ later, stays y → stays id)
  (alone : ∀ y ∈ later, stays id → stays y → Alone n id y)

include ordered behind alone

/-- What is removed with a constraint does not stay. -/
theorem Settles.removed_of_normal (found : n.temporal id = .ok c)
    (loop : stays id → n.isSelfLoop id = .ok false) (h : Settles n m id later c m') :
    ∀ y ∈ m'.removed.toList, y ∈ m.removed.toList ∨ ¬ stays y := by
  have merged {result : (Number × Number) × OrdSet TemporalId}
      (kind : c.bounds.kind = .controllable)
      (done : intersect n id c (c.bounds.lower, c.bounds.upper) m.removed later = .ok result) :
      ∀ y ∈ result.2.toList, y ∈ m.removed.toList ∨ ¬ stays y := by
    intro y member
    refine ((Settles.intersected ordered found done).fresh y member).imp_right ?_
    rintro ⟨inside, same⟩ still
    exact (alone y inside (behind y inside still) still).not_same found kind same
  cases h with
  | loop same =>
    intro y member
    rcases OrdSet.mem_insert_iff.mp member with rfl | old
    · refine .inr fun still => ?_
      have self := (isSelfLoop_eq_ok_iff found).mpr same
      rw [loop still] at self
      cases self
    · exact .inl old
  | left => exact fun y => .inl
  | kept kind done => exact merged kind done
  | narrowed kind done => exact merged kind done

/-- Bounds are narrowed to what they have in common with those that do not stay. -/
theorem exists_cuts (settled : settle n m id later = .ok m')
    (changed : m'.narrowed.get? id ≠ m.narrowed.get? id) :
    ∃ bounds others, m'.narrowed.get? id = some bounds ∧ Cuts n stays later id bounds others := by
  obtain ⟨c, found, step⟩ := settles_of_eq_ok settled
  cases step with
  | loop | left | kept => exact absurd rfl changed
  | @narrowed bounds removed kind merged =>
    have inner := Settles.intersected ordered found merged
    have fresh {d : TemporalId} (member : d ∈ removed.toList) (new : d ∉ m.removed.toList) :
        d ∈ later ∧ ¬ stays d ∧ n.constrainSameEvents id d = .ok true := by
      obtain ⟨inside, same⟩ := (inner.fresh d member).resolve_left new
      refine ⟨inside, fun late => ?_, same⟩
      exact (alone d inside (behind d inside late) late).not_same found kind same
    refine ⟨bounds, removed.toList.filter (!m.removed.contains ·), OrdMap.get?_insert_self, ?_,
      fun d member => ?_, fun c' found' t => ?_⟩
    · -- if nothing were merged with it, it would keep its bounds
      intro none
      have loop : n.isSelfLoop id = .ok false := by
        refine (loop_of_settle settled).resolve_right ?_
        rintro ⟨_, same⟩
        rw [same] at changed
        exact changed rfl
      have apart : ∀ y ∈ later, y ∉ m.removed.toList → Alone n id y := by
        intro y member free _ _ _
        refine (same_of_intersect merged).2 y member fun gone => ?_
        simpa [free, gone] using List.filter_eq_nil_iff.mp none y gone
      rw [settle_of_alone ordered found loop apart] at settled
      rw [← Except.ok.inj settled] at changed
      exact changed rfl
    · obtain ⟨member, new⟩ := List.mem_filter.mp member
      exact fresh member (by simpa using new)
    · obtain rfl := Except.ok.inj (found.symm.trans found')
      simp [inner.allows, Bounds.Allow, List.mem_filter]

end New

/-! ## Merging again -/

/-- Where others come behind the constraints that stay, only those are removed, and
bounds are narrowed only by theirs. -/
theorem within_of_normal (ordered : n.Ordered) (nodup : ids.Nodup) (normal : Normal n stays ids)
    (behind : ids.Pairwise fun a b => stays b → stays a) (done : plan n m ids = .ok m') :
    (∀ y ∈ m'.removed.toList, y ∈ m.removed.toList ∨ ¬ stays y) ∧
      ∀ y, m'.narrowed.get? y ≠ m.narrowed.get? y →
        ∃ bounds others, m'.narrowed.get? y = some bounds ∧ Cuts n stays ids y bounds others := by
  induction ids generalizing m with
  | nil =>
    obtain rfl := Except.ok.inj done
    exact ⟨fun _ => .inl, fun _ differ => absurd rfl differ⟩
  | cons id later ih =>
    obtain ⟨first, behind⟩ := List.pairwise_cons.mp behind
    obtain ⟨apart, nodup⟩ := List.nodup_cons.mp nodup
    rw [plan] at done
    split at done
    next =>
      obtain ⟨removed, narrowed⟩ := ih nodup normal.tail behind done
      refine ⟨removed, fun y differ => ?_⟩
      obtain ⟨bounds, others, value, cuts⟩ := narrowed y differ
      exact ⟨bounds, others, value, cuts.cons⟩
    next =>
      obtain ⟨mid, settled, rest⟩ := bind_eq_ok_iff.mp done
      obtain ⟨c, found, step⟩ := settles_of_eq_ok settled
      obtain ⟨removed, narrowed⟩ := ih nodup normal.tail behind rest
      have before := step.removed_of_normal ordered first normal.head found
        (normal.loops id (List.mem_cons_self ..))
      refine ⟨fun y member => ?_, fun y differ => ?_⟩
      · rcases removed y member with old | late
        · exact before y old
        · exact .inr late
      · by_cases here : y = id
        · -- later steps leave the bounds alone
          subst here
          have kept := (within_of_plan ordered rest).narrowed apart
          rw [kept] at differ ⊢
          obtain ⟨bounds, others, value, cuts⟩ :=
            exists_cuts ordered first normal.head settled differ
          exact ⟨bounds, others, value, cuts.cons⟩
        · have same := (step.within ordered found).narrowed (by simpa using here)
          obtain ⟨bounds, others, value, cuts⟩ := narrowed y (same ▸ differ)
          exact ⟨bounds, others, value, cuts.cons⟩

/-- What merging leaves is not to be merged. -/
theorem normal_of_plan (ordered : n.Ordered) (nodup : ids.Nodup) (done : plan n m ids = .ok m') :
    Normal n (· ∉ m'.removed.toList) ids := by
  induction ids generalizing m with
  | nil => exact ⟨nofun, .nil⟩
  | cons id later ih =>
    obtain ⟨apart, nodup⟩ := List.nodup_cons.mp nodup
    rw [plan] at done
    by_cases gone : m.removed.contains id = true
    · rw [if_pos gone] at done
      have gone := (within_of_plan ordered done).older (by simpa using gone)
      obtain ⟨loops, alone⟩ := ih nodup done
      exact ⟨List.forall_mem_cons.mpr ⟨fun left => absurd gone left, loops⟩,
        List.pairwise_cons.mpr ⟨fun _ _ left => absurd gone left, alone⟩⟩
    · rw [if_neg gone] at done
      obtain ⟨mid, settled, done⟩ := bind_eq_ok_iff.mp done
      obtain ⟨c, found, step⟩ := settles_of_eq_ok settled
      have rest := within_of_plan ordered done
      obtain ⟨loops, alone⟩ := ih nodup done
      refine ⟨List.forall_mem_cons.mpr ⟨fun left => ?_, loops⟩,
        List.pairwise_cons.mpr ⟨fun y member left still => ?_, alone⟩⟩
      · rcases loop_of_settle settled with loop | ⟨_, rfl⟩
        · exact loop
        · exact absurd (rest.older (by simp)) left
      · exact step.alone found (left ∘ rest.older) y member (still ∘ rest.older)

/-! ## What stands for a constraint that is removed -/

/-- The constraint stands for the other one: it relates the same events, and with the
bounds that it gets it allows nothing that the other one did not allow. -/
structure Represents (n : Network) (m : Merge) (a b : TemporalId) : Prop where
  /-- It is for the executive to meet. -/
  controllable : n.Controllable a
  /-- They relate the same events under the same support. -/
  same : n.constrainSameEvents a b = .ok true
  /-- The bounds are within those of the other one. -/
  within : ∀ c c', n.temporal a = .ok c → n.temporal b = .ok c' → ∀ d,
    (m.revised a c).bounds.Allow d → c'.bounds.Allow d

/-- A constraint that is removed with another is represented by it. -/
theorem Settles.represents (ordered : n.Ordered) (found : n.temporal id = .ok c)
    (free : m.narrowed.get? id = none) (before : id ∉ m.removed.toList) (apart : id ∉ later)
    (h : Settles n m id later c m') (gone : x ∈ m'.removed.toList) (new : x ∉ m.removed.toList) :
    x = id ∧ n.isSelfLoop id = .ok true ∨
      x ∈ later ∧ id ∉ m'.removed.toList ∧ Represents n m' id x := by
  have merged {result : (Number × Number) × OrdSet TemporalId}
      (done : intersect n id c (c.bounds.lower, c.bounds.upper) m.removed later = .ok result)
      (taken : x ∈ result.2.toList) : x ∈ later ∧ id ∉ result.2.toList ∧
        n.constrainSameEvents id x = .ok true ∧
        ∀ c', n.temporal x = .ok c' → ∀ d, Allows result.1 d → c'.bounds.Allow d := by
    have inner := Settles.intersected ordered found done
    obtain ⟨inside, same⟩ := (inner.fresh x taken).resolve_left new
    refine ⟨inside, fun own => ?_, same, fun c' found' d allows => ?_⟩
    · exact (inner.fresh id own).elim before fun ⟨among, _⟩ => apart among
    · exact ((inner.allows d).mp allows).2 x taken new c' found'
  cases h with
  | loop same =>
    obtain rfl := (OrdSet.mem_insert_iff.mp gone).resolve_right new
    exact .inl ⟨rfl, (isSelfLoop_eq_ok_iff found).mpr same⟩
  | left => exact absurd gone new
  | @kept bounds removed kind done lower upper =>
    obtain ⟨inside, left, same, within⟩ := merged done gone
    refine .inr ⟨inside, left, ⟨c, found, kind⟩, same, fun c₁ c' there found' d allows => within c' found' d ?_⟩
    obtain rfl := Except.ok.inj (found.symm.trans there)
    have alone : ({ m with removed } : Merge).revised id c = c := revised_of_get?_eq_none free
    rw [alone] at allows
    exact ⟨(Number.atMost_congr lower).mpr allows.1, (Number.atLeast_congr upper).mpr allows.2⟩
  | narrowed kind done =>
    obtain ⟨inside, left, same, within⟩ := merged done gone
    refine .inr ⟨inside, left, ⟨c, found, kind⟩, same, fun c₁ c' there found' d allows => within c' found' d ?_⟩
    rwa [revised, OrdMap.get?_insert_self] at allows

/-- A constraint that merging removes said nothing, or is represented by an older one
that stays. -/
theorem exists_represents (ordered : n.Ordered) (nodup : ids.Nodup)
    (free : ∀ y ∈ ids, m.narrowed.get? y = none) (done : plan n m ids = .ok m')
    (gone : x ∈ m'.removed.toList) (new : x ∉ m.removed.toList) :
    Idle n x ∨ ∃ a, List.Sublist [a, x] ids ∧ a ∉ m'.removed.toList ∧ Represents n m' a x := by
  induction ids generalizing m with
  | nil =>
    obtain rfl := Except.ok.inj done
    exact absurd gone new
  | cons id later ih =>
    obtain ⟨apart, nodup⟩ := List.nodup_cons.mp nodup
    obtain ⟨unchanged, others⟩ := List.forall_mem_cons.mp free
    have later_case (h : Idle n x ∨ ∃ a, List.Sublist [a, x] later ∧ a ∉ m'.removed.toList ∧
        Represents n m' a x) : Idle n x ∨ ∃ a, List.Sublist [a, x] (id :: later) ∧
          a ∉ m'.removed.toList ∧ Represents n m' a x := by
      refine h.imp_right ?_
      rintro ⟨a, inside, rest⟩
      exact ⟨a, inside.cons _, rest⟩
    rw [plan] at done
    by_cases before : m.removed.contains id = true
    · rw [if_pos before] at done
      exact later_case (ih nodup others done new)
    · rw [if_neg before] at done
      obtain ⟨mid, settled, done⟩ := bind_eq_ok_iff.mp done
      obtain ⟨c, found, step⟩ := settles_of_eq_ok settled
      have here := step.within ordered found
      have rest := within_of_plan ordered done
      have later_free : ∀ y ∈ later, mid.narrowed.get? y = none := by
        intro y member
        have differ : y ∉ [id] := fun same => apart (List.mem_singleton.mp same ▸ member)
        rw [here.narrowed differ, others y member]
      by_cases taken : x ∈ mid.removed.toList
      swap
      · exact later_case (ih nodup later_free done taken)
      rcases step.represents ordered found unchanged (by simpa using before) apart taken new with
        ⟨rfl, loop⟩ | ⟨inside, left, stands⟩
      · rcases loop_of_settle settled with straight | ⟨idle, _⟩
        · rw [loop] at straight
          cases straight
        · exact .inl idle
      · have alone := rest.narrowed apart
        refine .inr ⟨id, (List.singleton_sublist.mpr inside).cons_cons id, fun late => ?_,
          stands.controllable, stands.same, fun c c' => ?_⟩
        · exact (rest.removed late).elim left apart
        · rw [revised_of_narrowed_eq alone]
          exact stands.within c c'

end Merge

end PlanNetwork
