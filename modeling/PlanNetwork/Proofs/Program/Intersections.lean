/-
# Merging intersects bounds exactly

Where ids and names tell events apart, constraints relate the same events if and only if they
start and end at the same ones. Being mergeable is then an equivalence, and the constraints
that are for the executive to meet fall into classes. Merging goes through them oldest first,
so the oldest of a class is the one that stays, and all the others are compared with it. They
are removed together: as long as the oldest is there, none of its class has been removed.

Bounds are intersected one by one, and merging is refused as soon as they pass each other. The
bounds that two constraints have passed stay passed with any others that come in, so it does
not matter that this is found out early: merging is refused if and only if the bounds of all
constraints of a class pass each other.
-/

import PlanNetwork.Proofs.Program.Equivalence
import PlanNetwork.Proofs.Program.Remains

namespace PlanNetwork

open Network

namespace Number

variable {x y : Number}

theorem le_refl (h : x.isNaN = false) : x.le x = true := (le_of_equals (equals_self h)).1

theorem le_max (hx : x.isNaN = false) (hy : y.isNaN = false) :
    x.le (x.max y) = true ∧ y.le (x.max y) = true := by
  unfold max
  rw [hx, if_neg Bool.false_ne_true]
  cases less : x.lt y with
  | true => exact ⟨le_of_lt less, le_refl hy⟩
  | false => exact ⟨le_refl hx, le_of_lt_eq_false hx hy less⟩

theorem min_le (hx : x.isNaN = false) (hy : y.isNaN = false) :
    (x.min y).le x = true ∧ (x.min y).le y = true := by
  unfold min
  rw [hx, if_neg Bool.false_ne_true]
  cases less : y.lt x with
  | true => exact ⟨le_of_lt less, le_refl hy⟩
  | false => exact ⟨le_refl hx, le_of_lt_eq_false hy hx less⟩

theorem max_eq_or (x y : Number) : x.max y = x ∨ x.max y = y := by
  unfold max
  split
  · exact .inr rfl
  · split
    · exact .inr rfl
    · exact .inl rfl

theorem min_eq_or (x y : Number) : x.min y = x ∨ x.min y = y := by
  unfold min
  split
  · exact .inr rfl
  · split
    · exact .inr rfl
    · exact .inl rfl

theorem lt_of_le_of_lt_of_le {z w : Number} (first : x.le y = true) (less : y.lt z = true)
    (last : z.le w = true) : x.lt w = true := by
  obtain ⟨a, b, left, mid, ab⟩ := le_iff.mp first
  obtain ⟨b', c, mid', right, bc⟩ := lt_iff.mp less
  obtain ⟨c', d, right', end', cd⟩ := le_iff.mp last
  obtain rfl := Option.some.inj (mid.symm.trans mid')
  obtain rfl := Option.some.inj (right.symm.trans right')
  exact lt_iff.mpr ⟨a, d, left, end', by omega⟩

end Number

variable {n : Network} {id x y z : TemporalId} {c d : TemporalConstraint}
  {ids later : List TemporalId} {bounds : Number × Number} {among : TemporalId → Prop}

namespace Network

/-! ## The bounds of several constraints -/

/-- The greatest lower bound of some constraints, and their least upper bound. -/
structure Tightest (n : Network) (among : TemporalId → Prop) (bounds : Number × Number) : Prop where
  /-- No lower bound is greater. -/
  lower : ∀ x c, among x → n.temporal x = .ok c → c.bounds.lower.le bounds.1 = true
  /-- No upper bound is less. -/
  upper : ∀ x c, among x → n.temporal x = .ok c → bounds.2.le c.bounds.upper = true
  /-- It is the lower bound of one of them. -/
  attained : ∃ x c, among x ∧ n.temporal x = .ok c ∧ c.bounds.lower = bounds.1
  /-- It is the upper bound of one of them. -/
  attained' : ∃ x c, among x ∧ n.temporal x = .ok c ∧ c.bounds.upper = bounds.2

namespace Tightest

theorem congr {others : TemporalId → Prop} (h : n.Tightest among bounds)
    (same : ∀ x, among x ↔ others x) : n.Tightest others bounds := by
  obtain rfl : among = others := funext fun x => propext (same x)
  exact h

/-- One constraint has its own bounds. -/
theorem single (found : n.temporal x = .ok c) (ordered : c.bounds.Ordered) :
    n.Tightest (· = x) (c.bounds.lower, c.bounds.upper) := by
  obtain ⟨lower, upper⟩ := Number.isNaN_eq_false_of_le ordered
  refine ⟨?_, ?_, ⟨x, c, rfl, found, rfl⟩, ⟨x, c, rfl, found, rfl⟩⟩
  · rintro _ c' rfl found'
    obtain rfl := Except.ok.inj (found.symm.trans found')
    exact Number.le_refl lower
  · rintro _ c' rfl found'
    obtain rfl := Except.ok.inj (found.symm.trans found')
    exact Number.le_refl upper

theorem isNaN (h : n.Tightest among bounds) : bounds.1.isNaN = false ∧ bounds.2.isNaN = false := by
  obtain ⟨x, c, member, found, _⟩ := h.attained
  exact ⟨(Number.isNaN_eq_false_of_le (h.lower x c member found)).2,
    (Number.isNaN_eq_false_of_le (h.upper x c member found)).1⟩

/-- With one more constraint its bounds come in. -/
theorem insert (h : n.Tightest among bounds) (found : n.temporal y = .ok d)
    (ordered : d.bounds.Ordered) :
    n.Tightest (fun x => among x ∨ x = y) (intersection bounds d.bounds) := by
  obtain ⟨lower, upper⟩ := h.isNaN
  obtain ⟨lower', upper'⟩ := Number.isNaN_eq_false_of_le ordered
  obtain ⟨oldLower, newLower⟩ := Number.le_max lower lower'
  obtain ⟨oldUpper, newUpper⟩ := Number.min_le upper upper'
  refine ⟨?_, ?_, ?_, ?_⟩
  · rintro x c (old | rfl) there
    · exact Number.le_trans (h.lower x c old there) oldLower
    · obtain rfl := Except.ok.inj (found.symm.trans there)
      exact newLower
  · rintro x c (old | rfl) there
    · exact Number.le_trans oldUpper (h.upper x c old there)
    · obtain rfl := Except.ok.inj (found.symm.trans there)
      exact newUpper
  · rcases Number.max_eq_or bounds.1 d.bounds.lower with same | same
    · obtain ⟨x, c, member, there, attained⟩ := h.attained
      exact ⟨x, c, .inl member, there, attained.trans same.symm⟩
    · exact ⟨y, d, .inr rfl, found, same.symm⟩
  · rcases Number.min_eq_or bounds.2 d.bounds.upper with same | same
    · obtain ⟨x, c, member, there, attained⟩ := h.attained'
      exact ⟨x, c, .inl member, there, attained.trans same.symm⟩
    · exact ⟨y, d, .inr rfl, found, same.symm⟩

/-- Bounds that pass each other are passed as well by those of more constraints. -/
theorem crosses {others : TemporalId → Prop} {more : Number × Number}
    (h : n.Tightest among bounds) (wider : n.Tightest others more)
    (inside : ∀ x, among x → others x) (cross : bounds.2.lt bounds.1 = true) :
    more.2.lt more.1 = true := by
  obtain ⟨x, c, member, found, attained⟩ := h.attained
  obtain ⟨y, d, member', found', attained'⟩ := h.attained'
  have lower := wider.lower x c (inside x member) found
  have upper := wider.upper y d (inside y member') found'
  rw [attained] at lower
  rw [attained'] at upper
  exact Number.lt_of_le_of_lt_of_le upper cross lower

end Tightest

/-- Constraints that are there have such bounds together with those of others. -/
theorem Tightest.exists_append (ordered : n.Ordered) (h : n.Tightest among bounds)
    (there : ∀ x ∈ ids, ∃ c, n.temporal x = .ok c) :
    ∃ more, n.Tightest (fun x => among x ∨ x ∈ ids) more := by
  induction ids generalizing among bounds with
  | nil => exact ⟨bounds, h.congr fun x => by simp⟩
  | cons y rest ih =>
    obtain ⟨⟨d, found⟩, others⟩ := List.forall_mem_cons.mp there
    obtain ⟨more, tight⟩ := ih (h.insert found (ordered.temporal found)) others
    exact ⟨more, tight.congr fun x => by simp [or_assoc]⟩

end Network

namespace Merge

variable {removed : OrdSet TemporalId} {fault : Fault}
  {result : (Number × Number) × OrdSet TemporalId}

/-! ## Intersecting -/

/-- The bounds in the end are those of all that has been merged. -/
theorem tightest_of_intersect (ordered : n.Ordered) (tight : n.Tightest among bounds)
    (done : intersect n id c bounds removed later = .ok result) :
    n.Tightest (fun x => among x ∨ x ∈ result.2.toList ∧ x ∉ removed.toList) result.1 := by
  induction later generalizing bounds removed among with
  | nil =>
    obtain rfl := Except.ok.inj done
    exact tight.congr fun x => by simp
  | cons other rest ih =>
    cases kept : removed.contains other with
    | true =>
      rw [intersect, if_pos kept] at done
      exact ih tight done
    | false =>
      obtain ⟨answer, same, rest'⟩ := bind_eq_ok_iff.mp ((if_neg (by simp [kept])).symm.trans done)
      cases answer with
      | false => exact ih tight rest'
      | true =>
        obtain ⟨second, found, _⟩ := bind_eq_ok_iff.mp rest'
        rw [intersect_cons kept same found] at done
        dsimp only at done
        split at done
        next => cases done
        next =>
          have gone := (same_of_intersect done).1 other (by simp)
          have new : other ∉ removed.toList := by simpa using kept
          refine (ih (tight.insert found (ordered.temporal found)) done).congr fun x => ?_
          by_cases here : x = other
          · subst here
            simp [gone, new]
          · simp [here]

/-- Intersecting is refused if the bounds of constraints on the same events pass each other. -/
theorem crosses_of_intersect (ordered : n.Ordered) (tight : n.Tightest among bounds)
    (there : ∀ y ∈ later, ∃ answer, n.constrainSameEvents id y = .ok answer)
    (refused : intersect n id c bounds removed later = .error fault) :
    fault.category = .invalidType ∧ ∃ others more,
      (∀ x, others x → among x ∨ x ∈ later ∧ n.constrainSameEvents id x = .ok true) ∧
      n.Tightest others more ∧ more.2.lt more.1 = true := by
  induction later generalizing bounds removed among with
  | nil => cases refused
  | cons other rest ih =>
    obtain ⟨⟨answer, same⟩, there⟩ := List.forall_mem_cons.mp there
    have further {among' : TemporalId → Prop} (more : ∀ x, among' x → among x ∨ x = other ∧
        n.constrainSameEvents id other = .ok true) (h : fault.category = .invalidType ∧
          ∃ others more, (∀ x, others x → among' x ∨ x ∈ rest ∧
            n.constrainSameEvents id x = .ok true) ∧ n.Tightest others more ∧
            more.2.lt more.1 = true) :
        fault.category = .invalidType ∧ ∃ others more, (∀ x, others x → among x ∨
          x ∈ other :: rest ∧ n.constrainSameEvents id x = .ok true) ∧ n.Tightest others more ∧
          more.2.lt more.1 = true := by
      obtain ⟨category, others, bounds, inside, crossing⟩ := h
      refine ⟨category, others, bounds, fun x member => ?_, crossing⟩
      rcases inside x member with old | ⟨later, same⟩
      · refine (more x old).imp_right ?_
        rintro ⟨rfl, same⟩
        exact ⟨List.mem_cons_self .., same⟩
      · exact .inr ⟨List.mem_cons_of_mem _ later, same⟩
    cases kept : removed.contains other with
    | true =>
      rw [intersect, if_pos kept] at refused
      exact further (fun _ => .inl) (ih tight there refused)
    | false =>
      cases answer with
      | false =>
        rw [intersect, kept, same] at refused
        exact further (fun _ => .inl) (ih tight there refused)
      | true =>
        obtain ⟨_, _, rest'⟩ := bind_eq_ok_iff.mp same
        obtain ⟨second, found, _⟩ := bind_eq_ok_iff.mp rest'
        rw [intersect_cons kept same found] at refused
        have tighter := tight.insert found (ordered.temporal found)
        have more (x : TemporalId) : among x ∨ x = other → among x ∨ x = other ∧
            n.constrainSameEvents id other = .ok true := Or.imp_right fun here => ⟨here, same⟩
        dsimp only at refused
        split at refused
        next crossing =>
          obtain rfl := Except.error.inj refused
          exact further more ⟨rfl, _, _, fun _ => .inl, tighter, crossing⟩
        next => exact further more (ih tighter there refused)

end Merge

namespace Network

/-! ## Events told apart -/

/-- Ids and names tell the events apart. -/
structure TellsApart (n : Network) : Prop where
  /-- No two events have the same id. -/
  ids : ∀ a b e f, n.event a = .ok e → n.event b = .ok f → e.identity.id = f.identity.id → a = b
  /-- No two events have the same name. -/
  names : ∀ a b e f, n.event a = .ok e → n.event b = .ok f →
    e.identity.name = f.identity.name → a = b

/-- The executive is to meet both constraints, and they ask for the same, but for bounds:
they lead from one event to another, start and end at the same events, and have the same
support. -/
def Mergeable (n : Network) (a b : TemporalId) : Prop :=
  ∃ c d, n.temporal a = .ok c ∧ n.temporal b = .ok d ∧
    c.bounds.kind = .controllable ∧ d.bounds.kind = .controllable ∧ c.start ≠ c.finish ∧
    d.start = c.start ∧ d.finish = c.finish ∧ c.guard.support.same d.guard.support = true

theorem constrainSameEvents_eq_ok_true_iff (found : n.temporal x = .ok c)
    (found' : n.temporal y = .ok d) : n.constrainSameEvents x y = .ok true ↔
      n.sameEvent c.start d.start = .ok true ∧ n.sameEvent c.finish d.finish = .ok true ∧
      c.bounds.kind = d.bounds.kind ∧ c.guard.support.same d.guard.support = true := by
  constructor
  · intro same
    obtain ⟨d', found'', rest⟩ := of_constrainSameEvents found same
    obtain rfl := Except.ok.inj (found'.symm.trans found'')
    exact rest
  · rintro ⟨starts, finishes, kinds, supports⟩
    simp [constrainSameEvents, found, found', starts, finishes, kinds, supports, bind, Except.bind,
      pure, Except.pure]

theorem exists_sameEvent {a b : EventId} (there : ∃ e, n.event a = .ok e)
    (there' : ∃ e, n.event b = .ok e) : ∃ answer, n.sameEvent a b = .ok answer := by
  obtain ⟨e, found⟩ := there
  obtain ⟨f, found'⟩ := there'
  exact ⟨_, bind_eq_ok_iff.mpr ⟨e, found, bind_eq_ok_iff.mpr ⟨f, found', rfl⟩⟩⟩

theorem sameEvent_self {a : EventId} (there : ∃ e, n.event a = .ok e) :
    n.sameEvent a a = .ok true := by
  obtain ⟨e, found⟩ := there
  refine bind_eq_ok_iff.mpr ⟨e, found, bind_eq_ok_iff.mpr ⟨e, found, ?_⟩⟩
  simp [pure, Except.pure]

/-- Handles that find entries with different values are told apart by them. -/
theorem eq_of_nodup {kind : ElementKind} {α β : Type} {entries : Array α} {view : α → β}
    (nodup : (entries.toList.map view).Nodup) {a b : Handle kind} {x y : α}
    (found : lookup entries a = .ok x) (found' : lookup entries b = .ok y)
    (same : view x = view y) : a = b := by
  have value {i : Handle kind} {x : α} (found : lookup entries i = .ok x) :
      (entries.toList.map view)[i.index]? = some (view x) := by
    rw [List.getElem?_map, Array.getElem?_toList, lookup_eq_ok_iff.mp found, Option.map_some]
  obtain ⟨inside, _⟩ := List.getElem?_eq_some_iff.mp (value found)
  have index := (List.getElem?_inj inside nodup).mp
    ((value found).trans (same ▸ (value found').symm))
  cases a
  cases b
  exact congrArg Handle.mk index

theorem tellsApart_of_nodup (ids : (n.events.toList.map (·.identity.id)).Nodup)
    (names : (n.events.toList.map (·.identity.name)).Nodup) : n.TellsApart :=
  ⟨fun _ _ _ _ => eq_of_nodup ids, fun _ _ _ _ => eq_of_nodup names⟩

namespace TellsApart

variable (apart : n.TellsApart)

include apart

theorem eq_of_sameEvent {a b : EventId} (same : n.sameEvent a b = .ok true) : a = b := by
  obtain ⟨e, found, rest⟩ := bind_eq_ok_iff.mp same
  obtain ⟨f, found', agree⟩ := bind_eq_ok_iff.mp rest
  rcases Bool.or_eq_true_iff.mp (Except.ok.inj agree) with id | name
  · exact apart.ids a b e f found found' (eq_of_beq id)
  · exact apart.names a b e f found found' (eq_of_beq name)

/-- Relating the same events is passed on. -/
theorem constrainSameEvents_trans (first : n.constrainSameEvents x y = .ok true)
    (second : n.constrainSameEvents y z = .ok true) : n.constrainSameEvents x z = .ok true := by
  obtain ⟨c, found, _⟩ := bind_eq_ok_iff.mp first
  obtain ⟨d, found', starts, finishes, kinds, supports⟩ := of_constrainSameEvents found first
  obtain ⟨e, found'', starts', finishes', kinds', supports'⟩ :=
    of_constrainSameEvents found' second
  rw [constrainSameEvents_eq_ok_true_iff found found'']
  rw [apart.eq_of_sameEvent starts, apart.eq_of_sameEvent finishes]
  exact ⟨starts', finishes', kinds.trans kinds', Support.same_trans supports supports'⟩

end TellsApart

section Joined

variable (formed : n.WellFormed) (found : n.temporal x = .ok c)

include formed found

theorem WellFormed.exists_endpoints :
    (∃ e, n.event c.start = .ok e) ∧ ∃ e, n.event c.finish = .ok e := by
  obtain ⟨start, finish⟩ := formed.temporal c (Array.mem_of_getElem? (lookup_eq_ok_iff.mp found))
  exact ⟨⟨_, lookup_eq_ok_iff.mpr (Array.getElem?_eq_getElem start)⟩,
    _, lookup_eq_ok_iff.mpr (Array.getElem?_eq_getElem finish)⟩

theorem WellFormed.exists_isSelfLoop : ∃ answer, n.isSelfLoop x = .ok answer := by
  obtain ⟨start, finish⟩ := formed.exists_endpoints found
  obtain ⟨answer, same⟩ := exists_sameEvent start finish
  exact ⟨answer, (isSelfLoop_eq_ok_iff found).mpr same⟩

theorem WellFormed.exists_constrainSameEvents (found' : n.temporal y = .ok d) :
    ∃ answer, n.constrainSameEvents x y = .ok answer := by
  obtain ⟨start, finish⟩ := formed.exists_endpoints found
  obtain ⟨start', finish'⟩ := formed.exists_endpoints found'
  obtain ⟨starts, first⟩ := exists_sameEvent start start'
  obtain ⟨finishes, last⟩ := exists_sameEvent finish finish'
  unfold constrainSameEvents
  simp only [found, found', first, last, bind, Except.bind]
  cases starts <;> cases finishes <;> exact ⟨_, rfl⟩

theorem TellsApart.isSelfLoop_iff (apart : n.TellsApart) :
    n.isSelfLoop x = .ok true ↔ c.start = c.finish := by
  rw [isSelfLoop_eq_ok_iff found]
  refine ⟨apart.eq_of_sameEvent, fun same => ?_⟩
  rw [← same]
  exact sameEvent_self (formed.exists_endpoints found).1

theorem TellsApart.constrainSameEvents_iff (apart : n.TellsApart)
    (found' : n.temporal y = .ok d) :
    n.constrainSameEvents x y = .ok true ↔ d.start = c.start ∧ d.finish = c.finish ∧
      c.bounds.kind = d.bounds.kind ∧ c.guard.support.same d.guard.support = true := by
  obtain ⟨start, finish⟩ := formed.exists_endpoints found
  rw [constrainSameEvents_eq_ok_true_iff found found']
  constructor
  · rintro ⟨starts, finishes, rest⟩
    exact ⟨(apart.eq_of_sameEvent starts).symm, (apart.eq_of_sameEvent finishes).symm, rest⟩
  · rintro ⟨starts, finishes, rest⟩
    rw [starts, finishes]
    exact ⟨sameEvent_self start, sameEvent_self finish, rest⟩

theorem TellsApart.isSelfLoop_eq_false_iff (apart : n.TellsApart) :
    n.isSelfLoop x = .ok false ↔ c.start ≠ c.finish := by
  rw [ne_eq, ← apart.isSelfLoop_iff formed found]
  obtain ⟨answer, loop⟩ := formed.exists_isSelfLoop found
  rw [loop]
  cases answer <;> simp

/-- Two constraints can be merged if and only if merging takes them to relate the same
events, and the first one is for the executive to meet and relates no event to itself. -/
theorem TellsApart.mergeable_iff (apart : n.TellsApart) (there : ∃ d, n.temporal y = .ok d) :
    n.Mergeable x y ↔ n.Controllable x ∧ n.isSelfLoop x = .ok false ∧
      n.constrainSameEvents x y = .ok true := by
  obtain ⟨d, found'⟩ := there
  rw [apart.isSelfLoop_eq_false_iff formed found, apart.constrainSameEvents_iff formed found found']
  constructor
  · rintro ⟨c', d', here, here', kind, kind', straight, starts, finishes, supports⟩
    obtain rfl := Except.ok.inj (found.symm.trans here)
    obtain rfl := Except.ok.inj (found'.symm.trans here')
    exact ⟨⟨c, found, kind⟩, straight, starts, finishes, kind.trans kind'.symm, supports⟩
  · rintro ⟨⟨c', here, kind⟩, straight, starts, finishes, kinds, supports⟩
    obtain rfl := Except.ok.inj (found.symm.trans here)
    exact ⟨c, d, found, found', kind, kinds.symm.trans kind, straight, starts, finishes, supports⟩

end Joined

end Network

namespace Merge

variable {m m' : Merge} {removed : OrdSet TemporalId} {fault : Fault}
  {result : (Number × Number) × OrdSet TemporalId}

/-! ## Merging by classes -/

/-- Of constraints that relate the same events all have been removed, or none. -/
def Uniform (n : Network) (m : Merge) (ids : List TemporalId) : Prop :=
  ∀ x ∈ ids, ∀ y ∈ ids, n.constrainSameEvents x y = .ok true → x ∈ m.removed.toList →
    y ∈ m.removed.toList

theorem Uniform.tail (h : Uniform n m (id :: later)) : Uniform n m later :=
  fun x hx y hy => h x (List.mem_cons_of_mem id hx) y (List.mem_cons_of_mem id hy)

section Step

variable (ordered : n.Ordered) (found : n.temporal id = .ok c)
  (done : intersect n id c (c.bounds.lower, c.bounds.upper) m.removed later = .ok result)

include ordered found done

/-- Of the later ones, those are removed that relate the same events. -/
theorem mem_removed_iff_of_intersect (inside : y ∈ later) :
    y ∈ result.2.toList ↔ y ∈ m.removed.toList ∨ n.constrainSameEvents id y = .ok true := by
  have inner := Settles.intersected ordered found done
  refine ⟨fun gone => (inner.fresh y gone).imp_right And.right, ?_⟩
  rintro (old | same)
  · exact inner.older y old
  · by_contra left
    rw [(same_of_intersect done).2 y inside left] at same
    cases same

theorem uniform_of_intersect (apart : n.TellsApart) (uniform : Uniform n m later)
    (narrowed : OrdMap TemporalId (Number × Number)) :
    Uniform n ⟨result.2, narrowed⟩ later := by
  intro x hx y hy same gone
  rw [mem_removed_iff_of_intersect ordered found done hx] at gone
  rw [mem_removed_iff_of_intersect ordered found done hy]
  exact gone.imp (uniform x hx y hy same) (apart.constrainSameEvents_trans · same)

/-- If nothing of its class has been removed before, a constraint is intersected with all
later ones of its class. -/
theorem tightest_class (uniform : Uniform n m (id :: later)) (new : id ∉ m.removed.toList) :
    n.Tightest (fun y => y = id ∨ y ∈ later ∧ n.constrainSameEvents id y = .ok true)
      result.1 := by
  have inner := Settles.intersected ordered found done
  refine (tightest_of_intersect ordered (.single found (ordered.temporal found)) done).congr
    fun y => or_congr_right ⟨fun ⟨gone, left⟩ => (inner.fresh y gone).resolve_left left, ?_⟩
  rintro ⟨inside, same⟩
  refine ⟨(mem_removed_iff_of_intersect ordered found done inside).mpr (.inr same), fun old => ?_⟩
  exact new (uniform y (List.mem_cons_of_mem id inside) id (List.mem_cons_self ..)
    (constrainSameEvents_comm same) old)

end Step

/-- A step leaves classes whole. -/
theorem Settles.uniform (ordered : n.Ordered) (apart : n.TellsApart) (found : n.temporal id = .ok c)
    (new : id ∉ later) (uniform : Uniform n m later) (h : Settles n m id later c m') :
    Uniform n m' later := by
  cases h with
  | loop =>
    intro x hx y hy same gone
    have differ : x ≠ id := fun here => new (here ▸ hx)
    have old : x ∈ m.removed.toList := by simpa [differ] using gone
    exact OrdSet.mem_insert_iff.mpr (.inr (uniform x hx y hy same old))
  | left => exact uniform
  | kept _ done => exact uniform_of_intersect ordered found done apart uniform _
  | narrowed _ done => exact uniform_of_intersect ordered found done apart uniform _

/-- The bounds that a constraint has after its step are those of its class. -/
theorem Settles.tightest (ordered : n.Ordered) (found : n.temporal id = .ok c)
    (uniform : Uniform n m (id :: later)) (free : m.narrowed.get? id = none)
    (new : id ∉ m.removed.toList) (kind : c.bounds.kind = .controllable)
    (left : id ∉ m'.removed.toList) (h : Settles n m id later c m') :
    n.Tightest (fun y => y = id ∨ y ∈ later ∧ n.constrainSameEvents id y = .ok true)
      ((m'.revised id c).bounds.lower, (m'.revised id c).bounds.upper) := by
  cases h with
  | loop => simp at left
  | left differs => exact absurd kind differs
  | @kept bounds removed _ done lower upper =>
    have alone : ({ m with removed } : Merge).revised id c = c := revised_of_get?_eq_none free
    rw [alone]
    have tight := tightest_class ordered found done uniform new
    refine ⟨fun x c' member there => ?_, fun x c' member there => ?_,
      ⟨id, c, .inl rfl, found, rfl⟩, ⟨id, c, .inl rfl, found, rfl⟩⟩
    · exact Number.le_trans (tight.lower x c' member there) (Number.le_of_equals lower).1
    · exact Number.le_trans (Number.le_of_equals upper).2 (tight.upper x c' member there)
  | narrowed _ done =>
    rw [revised, OrdMap.get?_insert_self]
    exact tightest_class ordered found done uniform new

/-- Constraints that stay have the bounds of their class in the end. -/
theorem tightest_of_plan (ordered : n.Ordered) (apart : n.TellsApart) (nodup : ids.Nodup)
    (uniform : Uniform n m ids) (free : ∀ y ∈ ids, m.narrowed.get? y = none)
    (done : plan n m ids = .ok m') (split : x :: later <:+ ids) (left : x ∉ m'.removed.toList)
    (found : n.temporal x = .ok c) (kind : c.bounds.kind = .controllable) :
    n.Tightest (fun y => y = x ∨ y ∈ later ∧ n.constrainSameEvents x y = .ok true)
      ((m'.revised x c).bounds.lower, (m'.revised x c).bounds.upper) := by
  induction ids generalizing m with
  | nil => simp at split
  | cons id rest ih =>
    obtain ⟨new, nodup⟩ := List.nodup_cons.mp nodup
    obtain ⟨unchanged, others⟩ := List.forall_mem_cons.mp free
    rw [plan] at done
    by_cases gone : m.removed.contains id = true
    · rw [if_pos gone] at done
      rcases List.suffix_cons_iff.mp split with here | later_split
      · obtain ⟨rfl, rfl⟩ := List.cons.inj here
        exact absurd ((within_of_plan ordered done).older (by simpa using gone)) left
      · exact ih nodup uniform.tail others done later_split
    · rw [if_neg gone] at done
      obtain ⟨mid, settled, done⟩ := bind_eq_ok_iff.mp done
      obtain ⟨d, there, step⟩ := settles_of_eq_ok settled
      have after := within_of_plan ordered done
      rcases List.suffix_cons_iff.mp split with here | later_split
      · obtain ⟨rfl, rfl⟩ := List.cons.inj here
        obtain rfl := Except.ok.inj (found.symm.trans there)
        -- later steps leave the bounds alone
        rw [revised_of_narrowed_eq (after.narrowed new)]
        exact step.tightest ordered found uniform unchanged (by simpa using gone) kind
          (left ∘ after.older)
      · refine ih nodup (step.uniform ordered apart there new uniform.tail) (fun y member => ?_)
          done later_split
        have differ : y ∉ [id] := fun same => new (List.mem_singleton.mp same ▸ member)
        rw [(step.within ordered there).narrowed differ, others y member]

/-! ## What merging is refused for -/

/-- The reasons for which merging is refused: a constraint from an event to itself that says
something, or constraints of one class whose bounds pass each other. -/
def Blocked (n : Network) (ids : List TemporalId) : Prop :=
  (∃ x ∈ ids, n.isSelfLoop x = .ok true ∧ ¬ Idle n x) ∨
    ∃ x ∈ ids, n.Controllable x ∧ n.isSelfLoop x = .ok false ∧ ∃ others bounds,
      (∀ y, others y → y = x ∨ y ∈ ids ∧ n.constrainSameEvents x y = .ok true) ∧
      n.Tightest others bounds ∧ bounds.2.lt bounds.1 = true

theorem Blocked.cons (h : Blocked n later) : Blocked n (id :: later) := by
  rcases h with ⟨x, inside, rest⟩ | ⟨x, inside, kind, loop, others, bounds, all, rest⟩
  · exact .inl ⟨x, List.mem_cons_of_mem id inside, rest⟩
  · exact .inr ⟨x, List.mem_cons_of_mem id inside, kind, loop, others, bounds, fun y member =>
      (all y member).imp_right (And.imp_left (List.mem_cons_of_mem id)), rest⟩

theorem blocked_of_settle (ordered : n.Ordered) (found : n.temporal id = .ok c)
    (loop : ∃ answer, n.isSelfLoop id = .ok answer)
    (total : ∀ y ∈ later, ∃ answer, n.constrainSameEvents id y = .ok answer)
    (refused : settle n m id later = .error fault) :
    fault.category = .invalidType ∧ Blocked n (id :: later) := by
  have member : id ∈ id :: later := List.mem_cons_self ..
  rcases bind_eq_error_iff.mp refused with missing | ⟨_, here, refused⟩
  · rw [found] at missing
    cases missing
  obtain rfl := Except.ok.inj (found.symm.trans here)
  obtain ⟨answer, loop⟩ := loop
  rcases bind_eq_error_iff.mp refused with missing | ⟨_, here, refused⟩
  · rw [loop] at missing
    cases missing
  obtain rfl := Except.ok.inj (loop.symm.trans here)
  cases answer with
  | true =>
    by_cases harmless : c.bounds.kind = .controllable ∧ c.bounds.lower.equals .zero = true
    · rw [if_pos rfl, if_pos harmless] at refused
      cases refused
    · rw [if_pos rfl, if_neg harmless] at refused
      obtain rfl := Except.error.inj refused
      refine ⟨rfl, .inl ⟨id, member, loop, ?_⟩⟩
      rintro ⟨_, d, there, idle⟩
      obtain rfl := Except.ok.inj (found.symm.trans there)
      exact harmless idle
  | false =>
    by_cases kind : c.bounds.kind = .controllable
    · rw [if_neg Bool.false_ne_true, if_neg (not_not.mpr kind)] at refused
      rcases bind_eq_error_iff.mp refused with stopped | ⟨result, _, rest⟩
      · have own := Tightest.single found (ordered.temporal found)
        obtain ⟨category, others, bounds, inside, crossing⟩ :=
          crosses_of_intersect ordered own total stopped
        refine ⟨category, .inr ⟨id, member, ⟨c, found, kind⟩, loop, others, bounds,
          fun y other => ?_, crossing⟩⟩
        exact (inside y other).imp_right (And.imp_left (List.mem_cons_of_mem id))
      · dsimp only at rest
        split at rest <;> cases rest
    · rw [if_neg Bool.false_ne_true, if_pos kind] at refused
      cases refused

theorem blocked_of_plan (ordered : n.Ordered) (formed : n.WellFormed)
    (there : ∀ x ∈ ids, ∃ c, n.temporal x = .ok c) (refused : plan n m ids = .error fault) :
    fault.category = .invalidType ∧ Blocked n ids := by
  induction ids generalizing m with
  | nil => cases refused
  | cons id later ih =>
    obtain ⟨⟨c, found⟩, others⟩ := List.forall_mem_cons.mp there
    rw [plan] at refused
    split at refused
    next => exact (ih others refused).imp_right .cons
    next =>
      rcases bind_eq_error_iff.mp refused with stopped | ⟨mid, _, rest⟩
      · refine blocked_of_settle ordered found (formed.exists_isSelfLoop found) (fun y member => ?_)
          stopped
        obtain ⟨d, found'⟩ := others y member
        exact formed.exists_constrainSameEvents found found'
      · exact (ih others rest).imp_right .cons

/-! ## The bounds in the end -/

/-- Nothing else about a constraint changes. -/
theorem revised_eq_rebound (m : Merge) (id : TemporalId) (c : TemporalConstraint) :
    m.revised id c = c.rebound ((m.revised id c).bounds.lower, (m.revised id c).bounds.upper) := by
  unfold revised
  split <;> rfl

/-- Bounds that merging gives are in order. -/
theorem Fits.revised_ordered (fits : m.Fits n) (ordered : n.Ordered)
    (found : n.temporal x = .ok c) : (m.revised x c).bounds.Ordered := by
  unfold revised
  cases value : m.narrowed.get? x with
  | none => exact ordered.temporal found
  | some bounds => exact (fits.narrowed _ (OrdMap.get?_eq_some_iff.mp value)).2

end Merge

end PlanNetwork
