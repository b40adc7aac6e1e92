/-
# Reading and writing guards

The guards of a network behave like a table. Writing one is seen when it is
read, and is not seen elsewhere; of two writes to one element the later
counts; writes to different elements can be made in either order; and writing
what is there already does nothing.
-/

import PlanNetwork.Network.Basic
import PlanNetwork.Proofs.Support.Guard

namespace PlanNetwork

namespace Network

variable {n m : Network} {element other : Guarded} {g h : Guard}

/-! ## Looking up -/

theorem lookup_eq_ok_iff {kind : ElementKind} {α : Type} {entries : Array α} {id : Handle kind}
    {a : α} : lookup entries id = .ok a ↔ entries[id.index]? = some a := by
  unfold lookup
  cases entries[id.index]? <;> simp

theorem lookup_index_lt {kind : ElementKind} {α : Type} {entries : Array α} {id : Handle kind}
    {a : α} (found : lookup entries id = .ok a) : id.index < entries.size :=
  (Array.getElem?_eq_some_iff.mp (lookup_eq_ok_iff.mp found)).1

section Push

variable {kind : ElementKind} {α : Type} {entries : Array α} {id : Handle kind} {a b : α}

theorem lookup_push (found : lookup entries id = .ok a) :
    lookup (entries.push b) id = .ok a := by
  rw [lookup_eq_ok_iff] at found ⊢
  have older := (Array.getElem?_eq_some_iff.mp found).1
  rw [Array.getElem?_push, if_neg (by omega), found]

theorem lookup_push_self (last : id.index = entries.size) :
    lookup (entries.push a) id = .ok a := by
  rw [lookup_eq_ok_iff, last]
  exact Array.getElem?_push_size

theorem lookup_ne_ok (last : id.index = entries.size) : lookup entries id ≠ .ok a := by
  intro found
  have := (Array.getElem?_eq_some_iff.mp (lookup_eq_ok_iff.mp found)).1
  omega

end Push

theorem map_eq_ok_iff {ε α β : Type} {result : Except ε α} {view : α → β} {b : β} :
    result.map view = .ok b ↔ ∃ a, result = .ok a ∧ view a = b := by
  cases result <;> simp [Except.map]

theorem toOption_eq_some_iff {ε α : Type} {result : Except ε α} {a : α} :
    result.toOption = some a ↔ result = .ok a := by
  cases result <;> simp [Except.toOption]

theorem bind_eq_ok_iff {ε α β : Type} {result : Except ε α} {next : α → Except ε β} {b : β} :
    (result >>= next) = .ok b ↔ ∃ a, result = .ok a ∧ next a = .ok b := by
  cases result <;> simp [bind, Except.bind]

theorem bind_eq_error_iff {ε α β : Type} {result : Except ε α} {next : α → Except ε β} {e : ε} :
    (result >>= next) = .error e ↔
      result = .error e ∨ ∃ a, result = .ok a ∧ next a = .error e := by
  cases result <;> simp [bind, Except.bind]

theorem choice_eq_ok_iff {id : EventId} {data : Choice} :
    n.choice id = .ok data ↔ ∃ e, n.event id = .ok e ∧ e.choice = some data := by
  unfold choice
  rw [bind_eq_ok_iff]
  refine exists_congr fun e => and_congr_right fun _ => ?_
  cases e.choice <;> simp [pure, Except.pure, throw, throwThe, MonadExceptOf.throw]

theorem refuseClash_eq_ok_iff {α : Type} {result : Except Clash α} {a : α} :
    refuseClash result = .ok a ↔ result = .ok a := by
  cases result <;> simp [refuseClash]

theorem refuseClash_eq_error_iff {α : Type} {result : Except Clash α} {fault : Fault} :
    refuseClash result = .error fault ↔
      ∃ clash, result = .error clash ∧ fault = .inconsistent clash := by
  cases result <;> simp [refuseClash, eq_comm]

theorem guard_event {id : EventId} :
    n.guard (.event id) = .ok g ↔ ∃ e, n.events[id.index]? = some e ∧ e.guard = g := by
  simp only [guard, event, map_eq_ok_iff, lookup_eq_ok_iff]

theorem guard_episode {id : EpisodeId} :
    n.guard (.episode id) = .ok g ↔ ∃ e, n.episodes[id.index]? = some e ∧ e.guard = g := by
  simp only [guard, episode, map_eq_ok_iff, lookup_eq_ok_iff]

theorem guard_temporal {id : TemporalId} :
    n.guard (.temporal id) = .ok g ↔ ∃ c, n.temporals[id.index]? = some c ∧ c.guard = g := by
  simp only [guard, temporal, map_eq_ok_iff, lookup_eq_ok_iff]

theorem guard_state {id : StateConstraintId} :
    n.guard (.state id) = .ok g ↔ ∃ c, n.states[id.index]? = some c ∧ c.guard = g := by
  simp only [guard, state, map_eq_ok_iff, lookup_eq_ok_iff]

theorem support_eq_ok_iff {s : Support} :
    n.support element = .ok s ↔ n.guard element = .ok (.ofSupport s) := by
  rw [support, map_eq_ok_iff]
  constructor
  · rintro ⟨g, found, rfl⟩
    rw [found, g.eq_ofSupport]
    rfl
  · intro found
    exact ⟨_, found, rfl⟩

theorem endpointSupport_eq_ok_iff {start finish : EventId} {s : Support} :
    n.endpointSupport start finish = .ok s ↔
      ∃ first second, n.support (.event start) = .ok first ∧
        n.support (.event finish) = .ok second ∧ first.tryAnd second = .ok s := by
  simp only [endpointSupport, bind_eq_ok_iff, refuseClash_eq_ok_iff, exists_and_left]

theorem support_event_congr (same : m.events = n.events) (id : EventId) :
    m.support (.event id) = n.support (.event id) := by
  simp only [support, guard, event, same]

/-- When events exist together depends on events alone. -/
theorem endpointSupport_congr (same : m.events = n.events) (start finish : EventId) :
    m.endpointSupport start finish = n.endpointSupport start finish := by
  simp only [endpointSupport, support_event_congr same]

/-! ## Writing -/

/-- Every guard that is there is one of the stored ones, and the other way. -/
theorem forall_guard_iff {P : Guard → Prop} :
    (∀ element g, n.guard element = .ok g → P g) ↔
      (∀ e ∈ n.events, P e.guard) ∧ (∀ e ∈ n.episodes, P e.guard) ∧
      (∀ c ∈ n.temporals, P c.guard) ∧ (∀ c ∈ n.states, P c.guard) := by
  constructor
  · intro all
    refine ⟨?_, ?_, ?_, ?_⟩ <;> intro entry member <;>
      obtain ⟨i, _, rfl⟩ := Array.mem_iff_getElem.mp member
    · exact all (.event ⟨i⟩) _ (guard_event.mpr ⟨_, Array.getElem?_eq_getElem _, rfl⟩)
    · exact all (.episode ⟨i⟩) _ (guard_episode.mpr ⟨_, Array.getElem?_eq_getElem _, rfl⟩)
    · exact all (.temporal ⟨i⟩) _ (guard_temporal.mpr ⟨_, Array.getElem?_eq_getElem _, rfl⟩)
    · exact all (.state ⟨i⟩) _ (guard_state.mpr ⟨_, Array.getElem?_eq_getElem _, rfl⟩)
  · rintro ⟨events, episodes, temporals, states⟩ (id | id | id | id) g found
    · obtain ⟨e, there, rfl⟩ := guard_event.mp found
      exact events e (Array.mem_of_getElem? there)
    · obtain ⟨e, there, rfl⟩ := guard_episode.mp found
      exact episodes e (Array.mem_of_getElem? there)
    · obtain ⟨c, there, rfl⟩ := guard_temporal.mp found
      exact temporals c (Array.mem_of_getElem? there)
    · obtain ⟨c, there, rfl⟩ := guard_state.mp found
      exact states c (Array.mem_of_getElem? there)

@[simp] theorem setGuard_journal : (n.setGuard element g).journal = n.journal := by
  cases element <;> rfl

@[simp] theorem setGuard_nextSerial : (n.setGuard element g).nextSerial = n.nextSerial := by
  cases element <;> rfl

theorem getElem?_modify_self {α : Type} {entries : Array α} {i : Nat} {a : α}
    (change : α → α) (there : entries[i]? = some a) :
    (entries.modify i change)[i]? = some (change a) := by
  rw [Array.getElem?_modify, if_pos rfl, there, Option.map_some]

theorem guard_setGuard_self {old : Guard} (found : n.guard element = .ok old) :
    (n.setGuard element g).guard element = .ok g := by
  cases element with
  | event id =>
    obtain ⟨e, there, _⟩ := guard_event.mp found
    exact guard_event.mpr ⟨_, getElem?_modify_self _ there, rfl⟩
  | episode id =>
    obtain ⟨e, there, _⟩ := guard_episode.mp found
    exact guard_episode.mpr ⟨_, getElem?_modify_self _ there, rfl⟩
  | temporal id =>
    obtain ⟨c, there, _⟩ := guard_temporal.mp found
    exact guard_temporal.mpr ⟨_, getElem?_modify_self _ there, rfl⟩
  | state id =>
    obtain ⟨c, there, _⟩ := guard_state.mp found
    exact guard_state.mpr ⟨_, getElem?_modify_self _ there, rfl⟩

/-- A write to another entry is not seen. -/
theorem lookup_modify_of_ne {kind : ElementKind} {α : Type} {entries : Array α}
    {id id' : Handle kind} {change : α → α} (differ : id ≠ id') :
    lookup (entries.modify id.index change) id' = lookup entries id' := by
  have apart : id.index ≠ id'.index := fun same => differ (by cases id; cases id'; congr)
  unfold lookup
  rw [Array.getElem?_modify, if_neg apart]

theorem guard_setGuard_of_ne (differ : element ≠ other) :
    (n.setGuard element g).guard other = n.guard other := by
  cases element <;> cases other <;> first
    | rfl
    | simp only [guard, setGuard, event, episode, temporal, state]
      rw [lookup_modify_of_ne fun same => differ (by rw [same])]

theorem modify_modify {α : Type} {entries : Array α} {i : Nat} {first second : α → α} :
    (entries.modify i first).modify i second = entries.modify i (second ∘ first) := by
  ext j hj hj'
  · simp
  · simp only [Array.getElem_modify]
    split <;> rfl

theorem modify_comm {α : Type} {entries : Array α} {i j : Nat} {first second : α → α}
    (apart : i ≠ j) :
    (entries.modify i first).modify j second = (entries.modify j second).modify i first := by
  ext k hk hk'
  · simp
  · simp only [Array.getElem_modify]
    by_cases hi : i = k
    · subst hi
      simp [apart.symm]
    · simp [hi]

theorem setGuard_setGuard : (n.setGuard element g).setGuard element h = n.setGuard element h := by
  cases element <;> simp only [setGuard, modify_modify] <;> rfl

theorem setGuard_comm (differ : element ≠ other) :
    (n.setGuard element g).setGuard other h = (n.setGuard other h).setGuard element g := by
  cases element <;> cases other <;> first
    | rfl
    | simp only [setGuard]
      rw [modify_comm fun same => differ (by congr; exact congrArg Handle.mk same)]

/-- A change that leaves one entry as it is leaves all of them. -/
theorem modify_eq_self {α : Type} {entries : Array α} {i : Nat} {a : α} (change : α → α)
    (there : entries[i]? = some a) (same : change a = a) : entries.modify i change = entries := by
  ext j hj hj'
  · simp
  · rw [Array.getElem_modify]
    split
    next at_j =>
      subst at_j
      rw [Array.getElem?_eq_getElem hj', Option.some.injEq] at there
      rw [there, same]
    next => rfl

/-- Writing the guard that is there changes nothing. -/
theorem setGuard_of_guard (found : n.guard element = .ok g) : n.setGuard element g = n := by
  cases element with
  | event id =>
    obtain ⟨e, there, rfl⟩ := guard_event.mp found
    exact congrArg ({ n with events := · })
      (modify_eq_self ({ · with guard := e.guard }) there rfl)
  | episode id =>
    obtain ⟨e, there, rfl⟩ := guard_episode.mp found
    exact congrArg ({ n with episodes := · })
      (modify_eq_self ({ · with guard := e.guard }) there rfl)
  | temporal id =>
    obtain ⟨c, there, rfl⟩ := guard_temporal.mp found
    exact congrArg ({ n with temporals := · })
      (modify_eq_self ({ · with guard := c.guard }) there rfl)
  | state id =>
    obtain ⟨c, there, rfl⟩ := guard_state.mp found
    exact congrArg ({ n with states := · })
      (modify_eq_self ({ · with guard := c.guard }) there rfl)

end Network

end PlanNetwork
