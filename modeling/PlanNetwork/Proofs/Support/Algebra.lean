/-
# Laws of intersection

Intersecting supports is commutative and associative, and it distributes over taking the
conjunctions of two supports together. These are equalities between sets of conjunctions
and not just between the conditions that the sets stand for, which is not a matter of
course: intersecting a support with itself may well give other conjunctions.

Intersecting drops the pairs of conjunctions that cannot be met together. To drop a pair
early does no harm. A conjunction with fewer literals has fewer conflicts and rules out
fewer values, so what cannot be met can still not be met when more literals come in.

Sets tell their members apart by comparing them, and of a variable comparing sees the key
alone. The laws are for literals in which a key stands for one variable.
-/

import PlanNetwork.Proofs.Support.Domains
import PlanNetwork.Proofs.Support.Literals

namespace PlanNetwork

variable {known : Literal → Prop}

/-! ## Sets whose members can be told apart -/

namespace OrdSet

variable {α : Type u} [Ord α] [Std.TransOrd α] {s t : OrdSet α} {x : α}

/-- If no member of one set compares as equal to another member of the other, the union
has them all. -/
theorem mem_union_iff_of (apart : ∀ a ∈ t.toList, ∀ b ∈ s.toList, compare a b = .eq → a = b) :
    x ∈ (s.union t).toList ↔ x ∈ s.toList ∨ x ∈ t.toList := by
  refine ⟨mem_of_mem_union, ?_⟩
  rintro (left | right)
  · exact mem_union_left left
  · obtain ⟨y, there, same⟩ := exists_mem_union_right (s := s) right
    rcases mem_of_mem_union there with left | right'
    · exact apart x right y left same ▸ there
    · exact eq_of_compare_eq right right' same ▸ there

end OrdSet

/-! ## Literals whose keys stand for one variable -/

/-- In these literals a key stands for one variable, with one label and one domain. -/
def Literal.Unambiguous (known : Literal → Prop) : Prop :=
  ∀ a b, known a → known b → a.choice.key = b.choice.key → a.choice = b.choice

namespace Conjunction

variable {c d e : Conjunction}

theorem eq_of_mem_iff (same : ∀ a, a ∈ c.toList ↔ a ∈ d.toList) : c = d :=
  congrArg mk (OrdSet.eq_of_mem_iff same)

section Unambiguous

variable (clear : Literal.Unambiguous known)
include clear

theorem literal_eq_of_compare_eq {a b : Literal} (left : known a) (right : known b)
    (same : compare a b = .eq) : a = b := by
  obtain ⟨key, value, negated⟩ := Literal.compare_eq_iff.mp same
  have choice := clear a b left right key
  cases a
  cases b
  cases choice
  cases value
  cases negated
  rfl

theorem eq_of_compare_eq (left : ∀ a ∈ c.toList, known a) (right : ∀ a ∈ d.toList, known a)
    (same : compare c d = .eq) : c = d := by
  refine eq_of_mem_iff fun a => ⟨fun member => ?_, fun member => ?_⟩
  · obtain ⟨b, there, equal⟩ := OrdSet.exists_mem_of_compare_eq same a member
    exact literal_eq_of_compare_eq clear (left a member) (right b there) equal ▸ there
  · obtain ⟨b, there, equal⟩ :=
      OrdSet.exists_mem_of_compare_eq (Std.OrientedCmp.eq_comm.mp same) a member
    exact literal_eq_of_compare_eq clear (right a member) (left b there) equal ▸ there

theorem mem_merge_iff (left : ∀ a ∈ c.toList, known a) (right : ∀ a ∈ d.toList, known a)
    {a : Literal} : a ∈ (c.merge d).toList ↔ a ∈ c.toList ∨ a ∈ d.toList :=
  OrdSet.mem_union_iff_of fun a there b here =>
    literal_eq_of_compare_eq clear (right a there) (left b here)

end Unambiguous

theorem known_merge (left : ∀ a ∈ c.toList, known a) (right : ∀ a ∈ d.toList, known a) :
    ∀ a ∈ (c.merge d).toList, known a :=
  fun a member => (OrdSet.mem_of_mem_union member).elim (left a) (right a)

/-- What has fewer literals can be met as well. -/
theorem isSatisfiable_of_subset (fewer : c.toList ⊆ d.toList) (passes : d.isSatisfiable = true) :
    c.isSatisfiable = true := by
  obtain ⟨conflicts, leaves⟩ : hasConflict d.toList = false ∧ d.leavesValues = true := by
    simpa [isSatisfiable] using passes
  have apart : hasConflict c.toList = false := by
    rw [Bool.eq_false_iff, Ne, hasConflict_iff]
    rintro ⟨a, ha, b, hb, conflict⟩
    rw [not_conflictsWith_of_mem conflicts (fewer ha) (fewer hb)] at conflict
    cases conflict
  have leaves : c.leavesValues = true := by
    refine leavesValues_iff.mpr fun a member negated => ?_
    have excluded : (c.excluded a.choice).toList ⊆ (d.excluded a.choice).toList := by
      intro value gone
      obtain ⟨b, there, rest⟩ := mem_excluded.mp gone
      exact mem_excluded.mpr ⟨b, fewer there, rest⟩
    have size : (c.excluded a.choice).size ≤ (d.excluded a.choice).size :=
      ((OrdSet.nodup _).subperm excluded).length_le
    rcases leavesValues_iff.mp leaves a (fewer member) negated with none | some
    · exact .inl (Nat.eq_zero_of_le_zero (none ▸ size))
    · exact .inr (Nat.lt_of_le_of_lt size some)
  simp [isSatisfiable, apart, leaves]

end Conjunction

/-! ## Supports -/

namespace Support

variable {s t u : Support} {m : Conjunction}

theorem eq_of_mem_iff (same : ∀ c, c ∈ s.toList ↔ c ∈ t.toList) : s = t :=
  congrArg mk (OrdSet.eq_of_mem_iff same)

theorem and_never (s : Support) : s.and never = never := by
  have none : s.toList.flatMap (fun c => never.toList.filterMap c.and?) = [] :=
    List.flatMap_eq_nil_iff.mpr fun _ _ => rfl
  rw [Support.and, none]
  rfl

/-- What always holds drops the conjunctions that cannot be met, and nothing else. -/
theorem mem_and_always_iff : m ∈ (s.and always).toList ↔ m ∈ s.toList ∧ m.isSatisfiable = true := by
  have drops {m : Conjunction} (member : m ∈ (s.and always).toList) :
      m ∈ s.toList ∧ m.isSatisfiable = true := by
    obtain ⟨c, inside, d, always, rfl, passes⟩ := exists_merge_of_mem_and member
    obtain rfl := List.mem_singleton.mp always
    exact ⟨inside, passes⟩
  refine ⟨drops, fun ⟨inside, passes⟩ => ?_⟩
  have only : Conjunction.always ∈ always.toList := List.mem_singleton_self _
  have together : (m.merge .always).isSatisfiable = true := passes
  obtain ⟨m', member, same⟩ := exists_mem_and inside only together
  exact OrdSet.eq_of_compare_eq inside (drops member).1 same ▸ member

/-- If all conjunctions can be met, what always holds drops none. -/
theorem and_always (met : ∀ c ∈ s.toList, c.isSatisfiable = true) : s.and always = s :=
  eq_of_mem_iff fun c => mem_and_always_iff.trans (and_iff_left_of_imp (met c))

section Unambiguous

variable (clear : Literal.Unambiguous known) (hs : s.Only known) (ht : t.Only known)
  (hu : u.Only known)
include clear hs ht

theorem mem_or_iff : m ∈ (s.or t).toList ↔ m ∈ s.toList ∨ m ∈ t.toList :=
  OrdSet.mem_union_iff_of fun c there d here =>
    Conjunction.eq_of_compare_eq clear (ht c there) (hs d here)

/-- The conjunctions of an intersection are those of the two supports put together, if
they can be met. -/
theorem mem_and_iff : m ∈ (s.and t).toList ↔
    m.isSatisfiable = true ∧ ∃ c ∈ s.toList, ∃ d ∈ t.toList, m = c.merge d := by
  constructor
  · intro member
    obtain ⟨c, left, d, right, same, passes⟩ := exists_merge_of_mem_and member
    exact ⟨passes, c, left, d, right, same⟩
  · rintro ⟨passes, c, left, d, right, rfl⟩
    obtain ⟨m, member, same⟩ := exists_mem_and left right passes
    have found := Conjunction.known_merge (hs c left) (ht d right)
    exact Conjunction.eq_of_compare_eq clear found (hs.and ht m member) same ▸ member

protected theorem and_comm : s.and t = t.and s := by
  have merge_comm {c d : Conjunction} (left : c ∈ s.toList) (right : d ∈ t.toList) :
      c.merge d = d.merge c := by
    refine Conjunction.eq_of_mem_iff fun a => ?_
    rw [Conjunction.mem_merge_iff clear (hs c left) (ht d right),
      Conjunction.mem_merge_iff clear (ht d right) (hs c left), or_comm]
  refine eq_of_mem_iff fun m => ?_
  rw [mem_and_iff clear hs ht, mem_and_iff clear ht hs]
  refine and_congr_right fun _ => ⟨?_, ?_⟩
  · rintro ⟨c, left, d, right, rfl⟩
    exact ⟨d, right, c, left, merge_comm left right⟩
  · rintro ⟨d, right, c, left, rfl⟩
    exact ⟨c, left, d, right, (merge_comm left right).symm⟩

include hu

theorem merge_assoc {c d e : Conjunction} (first : c ∈ s.toList) (second : d ∈ t.toList)
    (third : e ∈ u.toList) : (c.merge d).merge e = c.merge (d.merge e) := by
  have one := hs c first
  have two := ht d second
  have three := hu e third
  refine Conjunction.eq_of_mem_iff fun a => ?_
  rw [Conjunction.mem_merge_iff clear (Conjunction.known_merge one two) three,
    Conjunction.mem_merge_iff clear one two,
    Conjunction.mem_merge_iff clear one (Conjunction.known_merge two three),
    Conjunction.mem_merge_iff clear two three, or_assoc]

protected theorem and_assoc : (s.and t).and u = s.and (t.and u) := by
  -- either way three conjunctions are put together, and only the whole has to pass
  have left {m : Conjunction} : m ∈ ((s.and t).and u).toList ↔ m.isSatisfiable = true ∧
      ∃ c ∈ s.toList, ∃ d ∈ t.toList, ∃ e ∈ u.toList, m = (c.merge d).merge e := by
    rw [mem_and_iff clear (hs.and ht) hu]
    refine and_congr_right fun passes => ⟨?_, ?_⟩
    · rintro ⟨_, pair, e, third, rfl⟩
      obtain ⟨_, c, first, d, second, rfl⟩ := (mem_and_iff clear hs ht).mp pair
      exact ⟨c, first, d, second, e, third, rfl⟩
    · rintro ⟨c, first, d, second, e, third, rfl⟩
      have part : (c.merge d).isSatisfiable = true :=
        Conjunction.isSatisfiable_of_subset (fun _ => OrdSet.mem_union_left) passes
      exact ⟨_, (mem_and_iff clear hs ht).mpr ⟨part, c, first, d, second, rfl⟩, e, third, rfl⟩
  have right {m : Conjunction} : m ∈ (s.and (t.and u)).toList ↔ m.isSatisfiable = true ∧
      ∃ c ∈ s.toList, ∃ d ∈ t.toList, ∃ e ∈ u.toList, m = c.merge (d.merge e) := by
    rw [mem_and_iff clear hs (ht.and hu)]
    refine and_congr_right fun passes => ⟨?_, ?_⟩
    · rintro ⟨c, first, _, pair, rfl⟩
      obtain ⟨_, d, second, e, third, rfl⟩ := (mem_and_iff clear ht hu).mp pair
      exact ⟨c, first, d, second, e, third, rfl⟩
    · rintro ⟨c, first, d, second, e, third, rfl⟩
      have part : (d.merge e).isSatisfiable = true := by
        refine Conjunction.isSatisfiable_of_subset (fun a member => ?_) passes
        have rest := Conjunction.known_merge (ht d second) (hu e third)
        exact (Conjunction.mem_merge_iff clear (hs c first) rest).mpr (.inr member)
      exact ⟨c, first, _, (mem_and_iff clear ht hu).mpr ⟨part, d, second, e, third, rfl⟩, rfl⟩
  refine eq_of_mem_iff fun m => left.trans (Iff.trans (and_congr_right fun _ => ?_) right.symm)
  refine exists_congr fun c => and_congr_right fun first => exists_congr fun d =>
    and_congr_right fun second => exists_congr fun e => and_congr_right fun third => ?_
  rw [merge_assoc clear hs ht hu first second third]

theorem and_or_distrib : s.and (t.or u) = (s.and t).or (s.and u) := by
  refine eq_of_mem_iff fun m => ?_
  rw [mem_or_iff clear (hs.and ht) (hs.and hu), mem_and_iff clear hs (ht.or hu),
    mem_and_iff clear hs ht, mem_and_iff clear hs hu, ← and_or_left]
  refine and_congr_right fun _ => ?_
  simp only [mem_or_iff clear ht hu, or_and_right, exists_or, and_or_left]

end Unambiguous

/-- The laws of intersection, as equalities of sets of conjunctions. Let a key stand for one
variable in all literals of three supports. Nothing else is asked of the literals: they may
assign or rule out any values, in the domain or not, and the conjunctions need not be such
that they can be met. -/
theorem and_laws (clear : Literal.Unambiguous known) (hs : s.Only known) (ht : t.Only known)
    (hu : u.Only known) :
    s.and t = t.and s ∧ (s.and t).and u = s.and (t.and u) ∧
      s.and (t.or u) = (s.and t).or (s.and u) ∧ s.and never = never ∧
      (∀ c, c ∈ (s.and always).toList ↔ c ∈ s.toList ∧ c.isSatisfiable = true) ∧
      ((∀ c ∈ s.toList, c.isSatisfiable = true) → s.and always = s) :=
  ⟨s.and_comm clear hs ht, s.and_assoc clear hs ht hu, s.and_or_distrib clear hs ht hu,
    s.and_never, fun _ => mem_and_always_iff, and_always⟩

/-- Of three supports that rule out one value each, any two can hold together, but all three
leave no value of the choice. So whichever pair is put together first, this conjunction is
dropped when the third one comes in. What is left speaks of another choice. -/
theorem and_laws_exclusions :
    let x : ChoiceVariable := ⟨1, "x", .controllable, ["A", "B", "C"]⟩
    let y : ChoiceVariable := ⟨2, "y", .uncontrollable, ["A", "B"]⟩
    let known (a : Literal) : Prop := a.choice = x ∨ a.choice = y
    let s : Support := .ofLiteral (.isNot x "A")
    let t : Support := .ofList [.single (.isNot x "B"), .single (.is y "A")]
    let u : Support := .ofLiteral (.isNot x "C")
    (Literal.Unambiguous known ∧ s.Only known ∧ t.Only known ∧ u.Only known) ∧
      ((s.and t).and u).toList.map (·.toList) = [[.isNot x "A", .isNot x "C", .is y "A"]] ∧
      (s.and t).size = 2 ∧ (t.and u).size = 2 ∧
      (s.and t = t.and s ∧ (s.and t).and u = s.and (t.and u) ∧
        s.and (t.or u) = (s.and t).or (s.and u) ∧ s.and never = never ∧
        (∀ c, c ∈ (s.and always).toList ↔ c ∈ s.toList ∧ c.isSatisfiable = true) ∧
        ((∀ c ∈ s.toList, c.isSatisfiable = true) → s.and always = s)) := by
  intro x y known s t u
  have clear : Literal.Unambiguous known := by
    rintro a b (left | left) (right | right) key
    · exact left.trans right.symm
    · rw [left, right] at key
      cases key
    · rw [left, right] at key
      cases key
    · exact left.trans right.symm
  have hs : s.Only known := only_ofLiteral (.inl rfl)
  have ht : t.Only known := by
    unfold Only
    decide +kernel
  have hu : u.Only known := only_ofLiteral (.inl rfl)
  exact ⟨⟨clear, hs, ht, hu⟩, by decide +kernel, by decide +kernel, by decide +kernel,
    and_laws clear hs ht hu⟩

end Support

end PlanNetwork
