/-
# What merging constraints preserves

Merging finds out which constraints to remove and which bounds to narrow. Each
step settles one constraint: the later ones on the same events are removed, and
its own bounds become the intersection of all of theirs. So a schedule meets
what is left, with the new bounds, if and only if it met everything before.

The induction is on the constraints that are still to be settled. None of them
has been given new bounds yet, so those that a step removes have the bounds that
the network has.
-/

import PlanNetwork.Program.Simplification
import PlanNetwork.Proofs.Identity
import PlanNetwork.Proofs.Network.Schedule
import PlanNetwork.Proofs.OrdMap

namespace PlanNetwork

open Network

namespace Merge

variable {V : Vocabulary} {v : Valuation V} {n : Network} {m m' : Merge} {id : TemporalId}
  {ids later : List TemporalId} {c : TemporalConstraint} {t : Schedule}

/-- A constraint with the bounds that merging gives it. -/
def revised (m : Merge) (id : TemporalId) (c : TemporalConstraint) : TemporalConstraint :=
  match m.narrowed.get? id with
  | some bounds => c.rebound bounds
  | none => c

/-- Of some constraints, those that are left are met. -/
def Met (n : Network) (m : Merge) (v : Valuation V) (t : Schedule) (ids : List TemporalId) :
    Prop :=
  ∀ id ∈ ids, id ∉ m.removed.toList → ∀ c, n.temporal id = .ok c → (m.revised id c).Met v t

/-- No more is removed than some constraints, and no bounds are narrowed but
those of others. -/
structure Within (dropped changed : List TemporalId) (m m' : Merge) : Prop where
  /-- What was removed stays removed. -/
  older : ∀ {id}, id ∈ m.removed.toList → id ∈ m'.removed.toList
  /-- What is removed is one of the first. -/
  removed : ∀ {id}, id ∈ m'.removed.toList → id ∈ m.removed.toList ∨ id ∈ dropped
  /-- What is narrowed is one of the second. -/
  narrowed : ∀ {id}, id ∉ changed → m'.narrowed.get? id = m.narrowed.get? id

theorem Within.mono {dropped changed dropped' changed' : List TemporalId}
    (h : Within dropped changed m m') (more : dropped ⊆ dropped') (more' : changed ⊆ changed') :
    Within dropped' changed' m m' :=
  ⟨h.older, fun member => (h.removed member).imp_right (more ·),
    fun apart => h.narrowed fun member => apart (more' member)⟩

theorem Within.trans {dropped changed : List TemporalId} {m'' : Merge}
    (first : Within dropped changed m m') (second : Within dropped changed m' m'') :
    Within dropped changed m m'' := by
  refine ⟨second.older ∘ first.older, fun member => ?_, fun apart => ?_⟩
  · rcases second.removed member with old | new
    · exact first.removed old
    · exact .inr new
  · rw [second.narrowed apart, first.narrowed apart]

/-- What merging says can be done to the network. -/
structure Fits (m : Merge) (n : Network) : Prop where
  /-- Constraints to be removed are there. -/
  removed : ∀ id ∈ m.removed.toList, ∃ c, n.temporal id = .ok c
  /-- Constraints to be narrowed are there, and the bounds are in order. -/
  narrowed : ∀ entry ∈ m.narrowed.entries,
    (∃ c, n.temporal entry.1 = .ok c) ∧ entry.2.1.le entry.2.2 = true

theorem revised_of_narrowed_eq (same : m'.narrowed.get? id = m.narrowed.get? id) :
    m'.revised id c = m.revised id c := by
  rw [revised, same, revised]

theorem revised_of_get?_eq_none (free : m.narrowed.get? id = none) : m.revised id c = c := by
  rw [revised, free]

theorem met_cons : m.Met n v t (id :: ids) ↔
    (id ∉ m.removed.toList → ∀ c, n.temporal id = .ok c → (m.revised id c).Met v t) ∧
      m.Met n v t ids :=
  List.forall_mem_cons

/-- What is met depends only on what is said of the constraints in question. -/
theorem met_congr (removed : ∀ x ∈ ids, x ∈ m'.removed.toList ↔ x ∈ m.removed.toList)
    (narrowed : ∀ x ∈ ids, m'.narrowed.get? x = m.narrowed.get? x) :
    m'.Met n v t ids ↔ m.Met n v t ids := by
  apply forall₂_congr
  intro x member
  rw [removed x member]
  simp only [revised_of_narrowed_eq (narrowed x member)]

/-! ## Intersecting bounds -/

/-- What intersecting comes to: the bounds in the end are those at the start
together with those of all that has been removed. -/
structure Intersected (n : Network) (id : TemporalId) (later : List TemporalId)
    (bounds : Number × Number) (removed : OrdSet TemporalId)
    (result : (Number × Number) × OrdSet TemporalId) : Prop where
  /-- The bounds are in order. -/
  ordered : result.1.1.le result.1.2 = true
  /-- What was removed stays removed. -/
  older : ∀ x ∈ removed.toList, x ∈ result.2.toList
  /-- What is removed relates the same events. -/
  fresh : ∀ x ∈ result.2.toList,
    x ∈ removed.toList ∨ x ∈ later ∧ n.constrainSameEvents id x = .ok true
  /-- Nothing is allowed but what all of them allow. -/
  allows : ∀ d, Allows result.1 d ↔ Allows bounds d ∧ ∀ x ∈ result.2.toList,
    x ∉ removed.toList → ∀ c, n.temporal x = .ok c → c.bounds.Allow d

/-- Skipping a constraint changes nothing. -/
theorem Intersected.skip {bounds : Number × Number} {removed : OrdSet TemporalId}
    {result : (Number × Number) × OrdSet TemporalId} {other : TemporalId}
    (h : Intersected n id later bounds removed result) :
    Intersected n id (other :: later) bounds removed result := by
  refine { h with fresh := fun x member => ?_ }
  exact (h.fresh x member).imp_right (And.imp_left (List.mem_cons_of_mem other))

/-- One more constraint is removed, and its bounds come in. -/
theorem Intersected.merge {bounds : Number × Number} {removed : OrdSet TemporalId}
    {result : (Number × Number) × OrdSet TemporalId} {other : TemporalId}
    {second : TemporalConstraint} (ordered : bounds.1.le bounds.2 = true)
    (kept : other ∉ removed.toList) (same : n.constrainSameEvents id other = .ok true)
    (found : n.temporal other = .ok second) (fit : second.bounds.Ordered)
    (h : Intersected n id later (intersection bounds second.bounds) (removed.insert other)
      result) :
    Intersected n id (other :: later) bounds removed result := by
  refine ⟨h.ordered, fun x member => ?_, fun x member => ?_, fun d => ?_⟩
  · exact h.older x (by simp [member])
  · rcases h.fresh x member with old | ⟨inside, also⟩
    · rcases OrdSet.mem_insert_iff.mp old with rfl | old
      · exact .inr ⟨List.mem_cons_self .., same⟩
      · exact .inl old
    · exact .inr ⟨List.mem_cons_of_mem _ inside, also⟩
  · rw [h.allows, allows_intersection ordered fit, and_assoc]
    refine and_congr_right fun _ => ⟨fun ⟨here, rest⟩ x member new c there => ?_, fun all => ?_⟩
    · by_cases again : x = other
      · subst again
        obtain rfl := Except.ok.inj (found.symm.trans there)
        exact here
      · exact rest x member (by simp [again, new]) c there
    · refine ⟨all other (h.older other (by simp)) kept second found, fun x member new => ?_⟩
      exact all x member fun old => new (by simp [old])

/-- A constraint on the same events is removed, unless the bounds pass each other. -/
theorem intersect_cons {bounds : Number × Number} {removed : OrdSet TemporalId}
    {other : TemporalId} {second : TemporalConstraint} (kept : removed.contains other = false)
    (same : n.constrainSameEvents id other = .ok true) (found : n.temporal other = .ok second) :
    intersect n id c bounds removed (other :: later) =
      let both := intersection bounds second.bounds
      if both.2.lt both.1 then .error (.boundsDisjoint c.identity.id second.identity.id)
      else intersect n id c both (removed.insert other) later := by
  rw [intersect, kept, same]
  simp only [bind, Except.bind, found]
  rfl

theorem intersected_of_eq_ok (within : n.Ordered) {bounds : Number × Number}
    {removed : OrdSet TemporalId} {result : (Number × Number) × OrdSet TemporalId}
    (ordered : bounds.1.le bounds.2 = true)
    (done : intersect n id c bounds removed later = .ok result) :
    Intersected n id later bounds removed result := by
  induction later generalizing bounds removed with
  | nil =>
    obtain rfl := Except.ok.inj done
    exact ⟨ordered, fun _ old => old, fun _ => .inl, fun d => by simp +contextual⟩
  | cons other rest ih =>
    cases kept : removed.contains other with
    | true =>
      rw [intersect, if_pos kept] at done
      exact (ih ordered done).skip
    | false =>
      obtain ⟨answer, same, rest'⟩ := bind_eq_ok_iff.mp ((if_neg (by simp [kept])).symm.trans done)
      cases answer with
      | false => exact (ih ordered rest').skip
      | true =>
        obtain ⟨second, found, _⟩ := bind_eq_ok_iff.mp rest'
        rw [intersect_cons kept same found] at done
        dsimp only at done
        split at done
        next => cases done
        next meet =>
          have fit := within.temporal found
          have kept : other ∉ removed.toList := by simpa using kept
          have bounded := le_intersection ordered fit (by simpa using meet)
          exact (ih bounded done).merge ordered kept same found fit

/-- The first constraint with the bounds in the end stands for itself and all
that have been removed. -/
theorem Intersected.met_iff (agrees : n.Agrees t) (found : n.temporal id = .ok c)
    (kind : c.bounds.kind = .controllable) {bounds : Number × Number} {removed : OrdSet TemporalId}
    (h : Intersected n id later (c.bounds.lower, c.bounds.upper) m.removed (bounds, removed)) :
    ((c.guard.support.Holds v → Allows bounds (t c.finish - t c.start)) ∧
      ∀ x ∈ later, x ∉ removed.toList → ∀ c', n.temporal x = .ok c' → c'.Met v t) ↔
    c.Met v t ∧
      ∀ x ∈ later, x ∉ m.removed.toList → ∀ c', n.temporal x = .ok c' → c'.Met v t := by
  have merged : (c.guard.support.Holds v → Allows bounds (t c.finish - t c.start)) ↔
      c.Met v t ∧ ∀ x ∈ removed.toList, x ∉ m.removed.toList → ∀ c', n.temporal x = .ok c' →
        c'.Met v t := by
    have others : ∀ x ∈ removed.toList, x ∉ m.removed.toList → ∀ c', n.temporal x = .ok c' →
        (c'.Met v t ↔
          (c.guard.support.Holds v → c'.bounds.Allow (t c.finish - t c.start))) := by
      intro x member new c' found'
      have same := ((h.fresh x member).resolve_left new).2
      exact agrees.met_iff found found' same kind
    constructor
    · intro holds
      refine ⟨fun _ applies => ((h.allows _).mp (holds applies)).1, ?_⟩
      intro x member new c' found'
      rw [others x member new c' found']
      exact fun applies => ((h.allows _).mp (holds applies)).2 x member new c' found'
    · rintro ⟨first, rest⟩ applies
      refine (h.allows _).mpr ⟨first kind applies, fun x member new c' found' => ?_⟩
      exact (others x member new c' found').mp (rest x member new c' found') applies
  rw [merged, and_assoc]
  refine and_congr_right fun _ => ⟨fun ⟨gone, left⟩ x member new c' => ?_, fun all => ⟨?_, ?_⟩⟩
  · by_cases dropped : x ∈ removed.toList
    · exact gone x dropped new c'
    · exact left x member dropped c'
  · intro x member new
    exact all x ((h.fresh x member).resolve_left new).1 new
  · intro x member kept
    exact all x member fun old => kept (h.older x old)

/-! ## Settling one constraint -/

/-- What may become of one constraint and of the later ones. -/
inductive Settles (n : Network) (m : Merge) (id : TemporalId) (later : List TemporalId)
    (c : TemporalConstraint) : Merge → Prop where
  /-- It says nothing, and is removed. -/
  | loop (same : n.sameEvent c.start c.finish = .ok true)
      (lower : c.bounds.lower.equals .zero = true) :
      Settles n m id later c { m with removed := m.removed.insert id }
  /-- It is not for the executive to meet. -/
  | left (kind : c.bounds.kind ≠ .controllable) : Settles n m id later c m
  /-- Later ones are removed, and it keeps its bounds. -/
  | kept {bounds : Number × Number} {removed : OrdSet TemporalId}
      (kind : c.bounds.kind = .controllable)
      (merged : intersect n id c (c.bounds.lower, c.bounds.upper) m.removed later =
        .ok (bounds, removed))
      (lower : bounds.1.equals c.bounds.lower = true)
      (upper : bounds.2.equals c.bounds.upper = true) :
      Settles n m id later c { m with removed }
  /-- Later ones are removed, and it gets other bounds. -/
  | narrowed {bounds : Number × Number} {removed : OrdSet TemporalId}
      (kind : c.bounds.kind = .controllable)
      (merged : intersect n id c (c.bounds.lower, c.bounds.upper) m.removed later =
        .ok (bounds, removed)) :
      Settles n m id later c ⟨removed, m.narrowed.insert id bounds⟩

theorem settles_of_eq_ok (done : settle n m id later = .ok m') :
    ∃ c, n.temporal id = .ok c ∧ Settles n m id later c m' := by
  obtain ⟨c, found, done⟩ := bind_eq_ok_iff.mp done
  obtain ⟨answer, self, done⟩ := bind_eq_ok_iff.mp done
  refine ⟨c, found, ?_⟩
  rw [isSelfLoop_eq_ok_iff found] at self
  cases answer with
  | true =>
    by_cases harmless : c.bounds.kind = .controllable ∧ c.bounds.lower.equals .zero = true
    · obtain rfl := Except.ok.inj ((if_pos harmless).symm.trans done)
      exact .loop self harmless.2
    · obtain ⟨_, ⟨⟩, _⟩ := bind_eq_ok_iff.mp ((if_neg harmless).symm.trans done)
  | false =>
    by_cases kind : c.bounds.kind = .controllable
    · rw [if_neg (by simp), if_neg (by simp [kind])] at done
      obtain ⟨⟨bounds, removed⟩, merged, done⟩ := bind_eq_ok_iff.mp done
      dsimp only at done
      by_cases same : (bounds.1.equals c.bounds.lower && bounds.2.equals c.bounds.upper) = true
      · obtain ⟨lower, upper⟩ := Bool.and_eq_true_iff.mp same
        obtain rfl := Except.ok.inj ((if_pos same).symm.trans done)
        exact .kept kind merged lower upper
      · obtain rfl := Except.ok.inj ((if_neg same).symm.trans done)
        exact .narrowed kind merged
    · rw [if_neg (by simp), if_pos kind] at done
      obtain rfl := Except.ok.inj done
      exact .left kind

/-- Intersecting starts from bounds that are in order. -/
theorem Settles.intersected (ordered : n.Ordered) (found : n.temporal id = .ok c)
    {result : (Number × Number) × OrdSet TemporalId}
    (merged : intersect n id c (c.bounds.lower, c.bounds.upper) m.removed later = .ok result) :
    Intersected n id later (c.bounds.lower, c.bounds.upper) m.removed result :=
  intersected_of_eq_ok ordered (ordered.temporal found) merged

theorem Intersected.within {bounds : Number × Number}
    {result : (Number × Number) × OrdSet TemporalId}
    {narrowed : OrdMap TemporalId (Number × Number)}
    (h : Intersected n id later bounds m.removed result)
    (others : ∀ {x}, x ≠ id → narrowed.get? x = m.narrowed.get? x) :
    Within (id :: later) [id] m ⟨result.2, narrowed⟩ := by
  refine ⟨h.older _, fun {x} member => ?_, fun {x} apart => others (by simpa using apart)⟩
  exact (h.fresh x member).imp_right fun ⟨inside, _⟩ => List.mem_cons_of_mem _ inside

/-- Settling a constraint is about it and the later ones. -/
theorem Settles.within (ordered : n.Ordered) (found : n.temporal id = .ok c)
    (h : Settles n m id later c m') : Within (id :: later) [id] m m' := by
  cases h with
  | loop => refine ⟨?_, ?_, fun _ => rfl⟩ <;> simp +contextual [or_comm]
  | left => exact ⟨fun old => old, .inl, fun _ => rfl⟩
  | kept _ merged => exact (Settles.intersected ordered found merged).within fun _ => rfl
  | narrowed _ merged =>
    exact (Settles.intersected ordered found merged).within fun differ => by simp [differ]

theorem Intersected.exists_removed {bounds : Number × Number}
    {result : (Number × Number) × OrdSet TemporalId} (fits : m.Fits n)
    (h : Intersected n id later bounds m.removed result) :
    ∀ x ∈ result.2.toList, ∃ c, n.temporal x = .ok c := by
  intro x member
  rcases h.fresh x member with old | ⟨_, same⟩
  · exact fits.removed x old
  · obtain ⟨_, _, rest⟩ := bind_eq_ok_iff.mp same
    obtain ⟨second, found, _⟩ := bind_eq_ok_iff.mp rest
    exact ⟨second, found⟩

/-- Settling a constraint asks for nothing that cannot be done. -/
theorem Settles.fits (ordered : n.Ordered) (found : n.temporal id = .ok c) (fits : m.Fits n)
    (h : Settles n m id later c m') : m'.Fits n := by
  cases h with
  | loop =>
    refine ⟨fun x member => ?_, fits.narrowed⟩
    rcases OrdSet.mem_insert_iff.mp member with rfl | old
    · exact ⟨c, found⟩
    · exact fits.removed x old
  | left => exact fits
  | kept _ merged =>
    exact ⟨(Settles.intersected ordered found merged).exists_removed fits, fits.narrowed⟩
  | narrowed _ merged =>
    have inner := Settles.intersected ordered found merged
    refine ⟨inner.exists_removed fits, fun entry member => ?_⟩
    rcases OrdMap.mem_entries_insert.mp member with rfl | ⟨old, _⟩
    · exact ⟨⟨c, found⟩, inner.ordered⟩
    · exact fits.narrowed entry old

theorem met_of_free (free : ∀ x ∈ ids, m.narrowed.get? x = none) : m.Met n v t ids ↔
    ∀ x ∈ ids, x ∉ m.removed.toList → ∀ c, n.temporal x = .ok c → c.Met v t := by
  apply forall₂_congr
  intro x member
  simp only [revised_of_get?_eq_none (free x member)]

theorem Intersected.met_cons_iff (agrees : n.Agrees t) (found : n.temporal id = .ok c)
    (kind : c.bounds.kind = .controllable) (new : id ∉ m.removed.toList) (apart : id ∉ later)
    (free : ∀ x ∈ id :: later, m.narrowed.get? x = none)
    (free' : ∀ x ∈ later, m'.narrowed.get? x = none) {bounds : Number × Number}
    (first : (m'.revised id c).Met v t ↔
      (c.guard.support.Holds v → Allows bounds (t c.finish - t c.start)))
    (h : Intersected n id later (c.bounds.lower, c.bounds.upper) m.removed (bounds, m'.removed)) :
    m'.Met n v t (id :: later) ↔ m.Met n v t (id :: later) := by
  have kept : id ∉ m'.removed.toList := by
    intro gone
    rcases h.fresh id gone with old | ⟨inside, _⟩
    · exact new old
    · exact apart inside
  have here (k : Merge) (stays : id ∉ k.removed.toList) :
      (id ∉ k.removed.toList → ∀ c, n.temporal id = .ok c → (k.revised id c).Met v t) ↔
        (k.revised id c).Met v t := by
    simp [stays, found]
  obtain ⟨unchanged, others⟩ := List.forall_mem_cons.mp free
  rw [met_cons, met_cons, here m' kept, here m new, met_of_free free', met_of_free others, first,
    revised_of_get?_eq_none unchanged]
  exact h.met_iff agrees found kind

/-- Settling a constraint changes nothing about what is met. -/
theorem Settles.met_iff (ordered : n.Ordered) (agrees : n.Agrees t)
    (found : n.temporal id = .ok c) (new : id ∉ m.removed.toList) (apart : id ∉ later)
    (free : ∀ x ∈ id :: later, m.narrowed.get? x = none) (h : Settles n m id later c m') :
    m'.Met n v t (id :: later) ↔ m.Met n v t (id :: later) := by
  obtain ⟨unchanged, others⟩ := List.forall_mem_cons.mp free
  cases h with
  | loop same lower =>
    -- a time of zero is all that is asked for
    have trivial : c.Met v t := by
      intro _ _
      rw [agrees same, sub_self]
      exact (ordered.temporal found).allow_zero lower
    have rest : Met n { m with removed := m.removed.insert id } v t later ↔ m.Met n v t later := by
      refine met_congr (fun x member => ?_) fun _ _ => rfl
      have differ : x ≠ id := fun same => apart (same ▸ member)
      simp [differ]
    rw [met_cons, met_cons, rest]
    simp [found, revised_of_get?_eq_none unchanged, trivial]
  | left => exact Iff.rfl
  | @kept bounds removed kind merged lower upper =>
    have inner := Settles.intersected ordered found merged
    refine inner.met_cons_iff agrees found kind new apart free others ?_
    have alone : ({ m with removed } : Merge).revised id c = c := revised_of_get?_eq_none unchanged
    have same : Allows bounds (t c.finish - t c.start) ↔
        c.bounds.Allow (t c.finish - t c.start) :=
      and_congr (Number.atMost_congr lower) (Number.atLeast_congr upper)
    rw [alone, same]
    simp [TemporalConstraint.Met, kind]
  | @narrowed bounds removed kind merged =>
    have inner := Settles.intersected ordered found merged
    refine inner.met_cons_iff agrees found kind new apart free (fun x member => ?_) ?_
    · have differ : x ≠ id := fun same => apart (same ▸ member)
      simp [differ, others x member]
    · rw [revised, OrdMap.get?_insert_self]
      simp [TemporalConstraint.Met, TemporalConstraint.rebound, kind, Bounds.Allow]

/-! ## Settling all constraints -/

/-- Every constraint is looked at, and nothing is asked for that cannot be done. -/
theorem fits_of_plan (ordered : n.Ordered) (fits : m.Fits n) (done : plan n m ids = .ok m') :
    m'.Fits n ∧ ∀ id ∈ ids, ∃ c, n.temporal id = .ok c := by
  induction ids generalizing m with
  | nil =>
    obtain rfl := Except.ok.inj done
    exact ⟨fits, nofun⟩
  | cons id later ih =>
    rw [plan] at done
    by_cases gone : m.removed.contains id = true
    · rw [if_pos gone] at done
      obtain ⟨fits', there⟩ := ih fits done
      exact ⟨fits', List.forall_mem_cons.mpr ⟨fits.removed id (by simpa using gone), there⟩⟩
    · rw [if_neg gone] at done
      obtain ⟨mid, settled, done⟩ := bind_eq_ok_iff.mp done
      obtain ⟨c, found, step⟩ := settles_of_eq_ok settled
      obtain ⟨fits', there⟩ := ih (step.fits ordered found fits) done
      exact ⟨fits', List.forall_mem_cons.mpr ⟨⟨c, found⟩, there⟩⟩

/-- Only bounds that are the executive's to meet are narrowed. -/
theorem controllable_of_plan (before : ∀ entry ∈ m.narrowed.entries, n.Controllable entry.1)
    (done : plan n m ids = .ok m') : ∀ entry ∈ m'.narrowed.entries, n.Controllable entry.1 := by
  induction ids generalizing m with
  | nil =>
    obtain rfl := Except.ok.inj done
    exact before
  | cons id later ih =>
    rw [plan] at done
    split at done
    next => exact ih before done
    next =>
      obtain ⟨mid, settled, done⟩ := bind_eq_ok_iff.mp done
      obtain ⟨c, found, step⟩ := settles_of_eq_ok settled
      refine ih ?_ done
      cases step with
      | loop | left | kept => exact before
      | narrowed kind _ =>
        intro entry member
        rcases OrdMap.mem_entries_insert.mp member with rfl | ⟨old, _⟩
        · exact ⟨c, found, kind⟩
        · exact before entry old

theorem within_of_plan (ordered : n.Ordered) (done : plan n m ids = .ok m') :
    Within ids ids m m' := by
  induction ids generalizing m with
  | nil =>
    obtain rfl := Except.ok.inj done
    exact ⟨fun old => old, .inl, fun _ => rfl⟩
  | cons id later ih =>
    rw [plan] at done
    split at done
    next => exact (ih done).mono (List.subset_cons_self ..) (List.subset_cons_self ..)
    next =>
      obtain ⟨mid, settled, done⟩ := bind_eq_ok_iff.mp done
      obtain ⟨c, found, step⟩ := settles_of_eq_ok settled
      refine ((step.within ordered found).mono (List.Subset.refl _) ?_).trans
        ((ih done).mono (List.subset_cons_self ..) (List.subset_cons_self ..))
      simp

/-- Merging preserves what is met: the constraints that are left, with the bounds
that they get, stand for all of them. -/
theorem met_iff_of_plan (ordered : n.Ordered) (agrees : n.Agrees t) (nodup : ids.Nodup)
    (free : ∀ x ∈ ids, m.narrowed.get? x = none) (done : plan n m ids = .ok m') :
    m'.Met n v t ids ↔ m.Met n v t ids := by
  induction ids generalizing m with
  | nil => simp [Met]
  | cons id later ih =>
    obtain ⟨apart, nodup⟩ := List.nodup_cons.mp nodup
    obtain ⟨unchanged, others⟩ := List.forall_mem_cons.mp free
    rw [plan] at done
    by_cases gone : m.removed.contains id = true
    · rw [if_pos gone] at done
      have before : id ∈ m.removed.toList := by simpa using gone
      have after := (within_of_plan ordered done).older before
      rw [met_cons, met_cons, ih nodup others done]
      simp [before, after]
    · rw [if_neg gone] at done
      have new : id ∉ m.removed.toList := by simpa using gone
      obtain ⟨mid, settled, done⟩ := bind_eq_ok_iff.mp done
      obtain ⟨c, found, step⟩ := settles_of_eq_ok settled
      have later_free : ∀ x ∈ later, mid.narrowed.get? x = none := by
        intro x member
        have differ : x ∉ [id] := fun same => apart (List.mem_singleton.mp same ▸ member)
        rw [(step.within ordered found).narrowed differ, others x member]
      -- the later steps leave the constraint alone that has been settled
      have rest := within_of_plan ordered done
      have alone : m'.Met n v t [id] ↔ mid.Met n v t [id] := by
        refine met_congr (fun x member => ?_) fun x member => ?_
        all_goals obtain rfl := List.mem_singleton.mp member
        · exact ⟨fun gone => (rest.removed gone).resolve_right apart, rest.older⟩
        · exact rest.narrowed apart
      calc m'.Met n v t (id :: later)
        _ ↔ m'.Met n v t [id] ∧ m'.Met n v t later := by simp [Met]
        _ ↔ mid.Met n v t [id] ∧ mid.Met n v t later := and_congr alone (ih nodup later_free done)
        _ ↔ mid.Met n v t (id :: later) := by simp [Met]
        _ ↔ m.Met n v t (id :: later) := step.met_iff ordered agrees found new apart free

end Merge

end PlanNetwork
