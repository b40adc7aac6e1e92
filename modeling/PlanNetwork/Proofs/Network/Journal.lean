/-
# Undoing takes back everything but serial numbers

While an operation may still be undone, the journal is enough to recover the
network it started from. The invariant says what undoing would give at any
moment: cut off the new elements, write back the guards that were noted, and
there is the old network again. Each elementary change keeps it. A new element
is cut off, a guard that is noted before it is written is written back, and one
that was noted earlier is not noted again, for the journal knows an older value.
-/

import PlanNetwork.Proofs.Network.Trail

namespace PlanNetwork

variable {brought : Support → Prop} {n m base : Network} {j : Journal} {element : Guarded}
  {g : Guard}

namespace Journal

/-- The network with the guards written back that the journal knows. -/
def restore (j : Journal) (n : Network) : Network :=
  j.guards.foldl (fun n entry => n.setGuard entry.1 entry.2) n

/-- A guard that will be written back may as well be written now. -/
theorem restore_setGuard_of_records (known : j.records element = true) :
    j.restore (n.setGuard element g) = j.restore n := by
  obtain ⟨_, _, _, _, _, _, guards⟩ := j
  simp only [records, restore] at known ⊢
  induction guards generalizing n with
  | nil => simp at known
  | cons entry rest ih =>
    rw [List.foldl_cons, List.foldl_cons]
    by_cases same : entry.1 = element
    · rw [same, Network.setGuard_setGuard]
    · rw [Network.setGuard_comm (Ne.symm same)]
      exact ih (by simpa [same] using known)

/-- Writing guards back does not get in the way of what has nothing to do with
guards. -/
theorem restore_comm (change : Network → Network)
    (apart : ∀ {n element g}, change (n.setGuard element g) = (change n).setGuard element g) :
    j.restore (change n) = change (j.restore n) := by
  unfold restore
  induction j.guards generalizing n with
  | nil => rfl
  | cons entry rest ih => rw [List.foldl_cons, List.foldl_cons, ← apart, ih]

end Journal

namespace Network

theorem commit_setGuard : (n.setGuard element g).commit = n.commit.setGuard element g := by
  cases element <;> rfl

theorem withSerial_setGuard {nextSerial : Nat} :
    (n.setGuard element g).withSerial nextSerial =
      (n.withSerial nextSerial).setGuard element g := by
  cases element <;> rfl

theorem guard_commit : n.commit.guard element = n.guard element := by
  cases element <;> rfl

theorem note_of_journal_eq_none (idle : n.journal = none) : n.note element g = n := by
  rw [note, idle]

theorem commit_note : (n.note element g).commit = n.commit := by
  unfold note
  cases n.journal with
  | none => rfl
  | some j => dsimp only; split <;> rfl

/-! ## Cutting off new elements -/

theorem take_modify {α : Type} {entries : Array α} {i count : Nat} {change : α → α} :
    (entries.modify i change).take count = (entries.take count).modify i change := by
  ext k hk hk'
  · simp
  · simp only [Array.getElem_extract, Array.getElem_modify, Nat.zero_add]

theorem modify_of_size_le {α : Type} {entries : Array α} {i : Nat} {change : α → α}
    (beyond : entries.size ≤ i) : entries.modify i change = entries := by
  ext k hk hk'
  · simp
  · rw [Array.getElem_modify, if_neg (by omega)]

theorem truncate_setGuard :
    (n.setGuard element g).truncate j = (n.truncate j).setGuard element g := by
  cases element <;> simp only [truncate, setGuard, take_modify]

/-- What is written to an element that is cut off is cut off with it. -/
theorem truncate_setGuard_of_not_predates (new : j.predates element = false) :
    (n.truncate j).setGuard element g = n.truncate j := by
  cases element <;>
    simp only [Journal.predates, decide_eq_false_iff_not, Nat.not_lt] at new <;>
    simp only [truncate, setGuard] <;>
    rw [modify_of_size_le (by rw [Array.size_extract]; omega)]

/-- An element that is not cut off keeps its guard. -/
theorem guard_truncate_of_predates (old : j.predates element = true)
    (found : n.guard element = .ok g) : (n.truncate j).guard element = .ok g := by
  have kept {α : Type} {entries : Array α} {i count : Nat} {a : α} (older : i < count)
      (there : entries[i]? = some a) : (entries.take count)[i]? = some a := by
    rw [Array.getElem?_extract, if_pos, Nat.zero_add, there]
    have := (Array.getElem?_eq_some_iff.mp there).1
    omega
  cases element with
  | event id =>
    obtain ⟨e, there, same⟩ := guard_event.mp found
    exact guard_event.mpr ⟨e, kept (of_decide_eq_true old) there, same⟩
  | episode id =>
    obtain ⟨e, there, same⟩ := guard_episode.mp found
    exact guard_episode.mpr ⟨e, kept (of_decide_eq_true old) there, same⟩
  | temporal id =>
    obtain ⟨c, there, same⟩ := guard_temporal.mp found
    exact guard_temporal.mpr ⟨c, kept (of_decide_eq_true old) there, same⟩
  | state id =>
    obtain ⟨c, there, same⟩ := guard_state.mp found
    exact guard_state.mpr ⟨c, kept (of_decide_eq_true old) there, same⟩

/-! ## The invariant -/

/-- The journal `j` of the network leads back to `base`. -/
structure LeadsBack (base n : Network) (j : Journal) : Prop where
  /-- It is the journal that is kept. -/
  kept : n.journal = some j
  /-- No element that was there is gone. -/
  events : j.events ≤ n.events.size
  /-- No element that was there is gone. -/
  episodes : j.episodes ≤ n.episodes.size
  /-- No element that was there is gone. -/
  temporals : j.temporals ≤ n.temporals.size
  /-- No element that was there is gone. -/
  states : j.states ≤ n.states.size
  /-- No element that was there is gone. -/
  chances : j.chances ≤ n.chances.size
  /-- No element that was there is gone. -/
  quantities : j.quantities ≤ n.quantities.size
  /-- Serial numbers are only given out. -/
  serial : base.nextSerial ≤ n.nextSerial
  /-- Undoing gives the old network, apart from the serial numbers. -/
  restored : j.restore (n.truncate j).commit = (base.withSerial n.nextSerial).commit

theorem leadsBack_checkpoint (n : Network) : ∃ j, LeadsBack n n.checkpoint j := by
  refine ⟨_, rfl, Nat.le_refl _, Nat.le_refl _, Nat.le_refl _, Nat.le_refl _, Nat.le_refl _,
    Nat.le_refl _, Nat.le_refl _, ?_⟩
  simp only [Journal.restore, List.foldl_nil, truncate, checkpoint, commit, withSerial,
    Array.take_eq_extract, Array.extract_size]

/-- Undoing goes back to where the journal leads. -/
theorem rollback_eq (h : LeadsBack base n j) :
    n.rollback = (base.withSerial n.nextSerial).commit := by
  rw [← h.restored, Journal.restore_comm commit commit_setGuard]
  simp only [rollback, h.kept]
  rfl

theorem LeadsBack.setGuard_recorded (h : LeadsBack base n j)
    (covered : j.predates element = true → j.records element = true) :
    LeadsBack base (n.setGuard element g) j := by
  have same : j.restore ((n.setGuard element g).truncate j).commit =
      j.restore (n.truncate j).commit := by
    rw [truncate_setGuard]
    cases old : j.predates element with
    | true => rw [commit_setGuard, Journal.restore_setGuard_of_records (covered old)]
    | false => rw [truncate_setGuard_of_not_predates old]
  obtain ⟨kept, events, episodes, temporals, states, chances, quantities, serial, restored⟩ := h
  refine ⟨by rwa [setGuard_journal], ?_, ?_, ?_, ?_, ?_, ?_, by rwa [setGuard_nextSerial],
    by rw [same, restored, setGuard_nextSerial]⟩ <;>
    cases element <;> simpa [setGuard]

/-- Noting a guard that is there keeps the way back, and from then on the
journal knows the guard of the element if it is an old one. -/
theorem LeadsBack.note (h : LeadsBack base n j) (found : n.guard element = .ok g) :
    ∃ j', LeadsBack base (n.note element g) j' ∧
      (j'.predates element = true → j'.records element = true) := by
  by_cases fresh : (j.predates element && !j.records element) = true
  · have noted : n.note element g =
        { n with journal := some { j with guards := (element, g) :: j.guards } } := by
      simp only [Network.note, h.kept, if_pos fresh]
    rw [noted]
    obtain ⟨old, _⟩ := Bool.and_eq_true_iff.mp fresh
    obtain ⟨kept, events, episodes, temporals, states, chances, quantities, serial, restored⟩ := h
    refine ⟨{ j with guards := (element, g) :: j.guards },
      ⟨rfl, events, episodes, temporals, states, chances, quantities, serial, ?_⟩, fun _ => ?_⟩
    · -- writing back what is there does nothing
      have there : (n.truncate j).commit.guard element = .ok g := by
        rw [guard_commit]
        exact guard_truncate_of_predates old found
      rw [← restored]
      show j.restore ((n.truncate j).commit.setGuard element g) = _
      rw [setGuard_of_guard there]
    · simp [Journal.records]
  · have same : n.note element g = n := by
      simp only [Network.note, h.kept, if_neg fresh]
    rw [same]
    refine ⟨j, h, fun old => ?_⟩
    simpa [old] using fresh

theorem size_le_push {α : Type} {entries : Array α} {a : α} {count : Nat}
    (there : count ≤ entries.size) : count ≤ (entries.push a).size := by
  rw [Array.size_push]
  omega

theorem take_push_of_le {α : Type} {entries : Array α} {a : α} {count : Nat}
    (there : count ≤ entries.size) : (entries.push a).take count = entries.take count :=
  Array.extract_push_of_le there

/-- Each elementary change keeps a way back. -/
theorem LeadsBack.change (h : LeadsBack base n j) (change : Change brought n m) :
    ∃ j', LeadsBack base m j' := by
  cases change with
  | count later =>
    refine ⟨j, { h with serial := Nat.le_trans h.serial later, restored := ?_ }⟩
    show j.restore ((n.truncate j).commit.withSerial _) = _
    rw [Journal.restore_comm (·.withSerial _) withSerial_setGuard, h.restored]
    rfl
  | event e _ =>
    refine ⟨j, { h with events := ?_, restored := ?_ }⟩
    · exact size_le_push h.events
    · simpa only [truncate, take_push_of_le h.events] using h.restored
  | episode e _ =>
    refine ⟨j, { h with episodes := ?_, restored := ?_ }⟩
    · exact size_le_push h.episodes
    · simpa only [truncate, take_push_of_le h.episodes] using h.restored
  | temporal c _ _ =>
    refine ⟨j, { h with temporals := ?_, restored := ?_ }⟩
    · exact size_le_push h.temporals
    · simpa only [truncate, take_push_of_le h.temporals] using h.restored
  | state c _ _ =>
    refine ⟨j, { h with states := ?_, restored := ?_ }⟩
    · exact size_le_push h.states
    · simpa only [truncate, take_push_of_le h.states] using h.restored
  | chance c _ =>
    refine ⟨j, { h with chances := ?_, restored := ?_ }⟩
    · exact size_le_push h.chances
    · simpa only [truncate, take_push_of_le h.chances] using h.restored
  | quantity v =>
    refine ⟨j, { h with quantities := ?_, restored := ?_ }⟩
    · exact size_le_push h.quantities
    · simpa only [truncate, take_push_of_le h.quantities] using h.restored
  | note found => exact (h.note found).imp fun _ => And.left
  | guard found _ =>
    obtain ⟨j', back, covered⟩ := h.note found
    exact ⟨j', back.setGuard_recorded covered⟩

theorem LeadsBack.trail (h : LeadsBack base n j) (trail : Trail brought n m) :
    ∃ j', LeadsBack base m j' := by
  induction trail with
  | refl => exact ⟨j, h⟩
  | tail _ change ih =>
    obtain ⟨j', back⟩ := ih
    exact back.change change

/-- Whatever has been done since the journal was started, undoing it gives the
old network, apart from the serial numbers. -/
theorem Trail.rollback_eq (trail : Trail brought n.checkpoint m) :
    m.rollback = (n.withSerial m.nextSerial).commit ∧ n.nextSerial ≤ m.nextSerial := by
  obtain ⟨j, start⟩ := n.leadsBack_checkpoint
  obtain ⟨j', back⟩ := start.trail trail
  exact ⟨Network.rollback_eq back, back.serial⟩

/-! ## Operations that take effect as a whole -/

theorem commit_of_journal_eq_none (idle : n.journal = none) : n.commit = n := by
  rw [commit, ← idle]

theorem Derives.commit {s : Support} (h : n.Derives s) : n.commit.Derives s := by
  cases h with
  | held found => exact .held (by rwa [support, guard_commit])
  | both narrowed => exact .both narrowed
  | single passes => exact .single passes

theorem Admits.commit {s : Support} (h : n.Admits brought s) : n.commit.Admits brought s :=
  h.imp_left Derives.commit

/-- What is done with a journal could have been done without. -/
theorem Change.commit (change : Change brought n m) : Change brought n.commit m.commit := by
  cases change with
  | count later => exact .count n.commit later
  | event e fits => exact .event n.commit e fits.commit
  | episode e fits => exact .episode n.commit e fits.commit
  | temporal c fits valid => exact .temporal n.commit c fits.commit valid
  | state c fits valid => exact .state n.commit c fits.commit (valid.mono id rfl rfl)
  | chance c valid => exact .chance n.commit c valid
  | quantity v => exact .quantity n.commit v
  | note found =>
    rw [commit_note, ← note_of_journal_eq_none (n := n.commit) rfl]
    exact .note (guard_commit.trans found)
  | guard found fits =>
    rw [commit_setGuard, commit_note, ← note_of_journal_eq_none (n := n.commit) rfl]
    exact .guard (guard_commit.trans found) fits.commit

theorem Trail.commit (trail : Trail brought n m) : Trail brought n.commit m.commit :=
  Relation.ReflTransGen.lift Network.commit (fun _ _ => Change.commit) _ _ trail

/-- The journal is only written while there is one. -/
theorem Trail.journal_eq_none (trail : Trail brought n m) (idle : n.journal = none) :
    m.journal = none := by
  induction trail with
  | refl => exact idle
  | tail _ change ih =>
    cases change with
    | note found => rwa [note_of_journal_eq_none ih]
    | guard found fits => rwa [note_of_journal_eq_none ih, setGuard_journal]
    | _ => exact ih

end Network

open Network

namespace Edit

variable {α : Type}

theorem atomically_of_nested {op : Edit α} (nested : n.journal.isSome = true) :
    atomically op n = op n :=
  if_pos nested

theorem atomically_of_idle {op : Edit α} (idle : n.journal = none) :
    atomically op n = op.bracket checkpoint commit rollback n :=
  if_neg (by rw [idle]; simp)

/-- What has taken effect as a whole was done with a journal or without. -/
theorem of_atomically_eq_ok {op : Edit α} {a : α}
    (done : atomically op n = .ok a m) :
    op n = .ok a m ∨ ∃ k, op n.checkpoint = .ok a k ∧ m = k.commit := by
  by_cases nested : n.journal.isSome = true
  · exact .inl (by rwa [atomically_of_nested nested] at done)
  · rw [atomically_of_idle (by simpa using nested)] at done
    exact .inr (Attempt.bracket_eq_ok_iff.mp done)

/-- An operation that takes effect as a whole leaves nothing behind if it is
refused, apart from serial numbers that were given out. -/
theorem atomically_eq_error {op : Edit α} {fault : Fault} (idle : n.journal = none)
    (steps : ∀ k, op n.checkpoint = .error fault k → Trail brought n.checkpoint k)
    (refused : atomically op n = .error fault m) :
    ∃ nextSerial, n.nextSerial ≤ nextSerial ∧ m = n.withSerial nextSerial := by
  rw [atomically_of_idle idle, Attempt.bracket_eq_error_iff] at refused
  obtain ⟨k, failed, rfl⟩ := refused
  obtain ⟨undone, later⟩ := (steps k failed).rollback_eq
  exact ⟨k.nextSerial, later, undone.trans (commit_of_journal_eq_none idle)⟩

/-- It leaves a trail if its steps do. -/
theorem follows_atomically {op : Edit α} (steps : ∀ n, Follows brought op n) :
    Follows brought (atomically op) n := by
  by_cases nested : n.journal.isSome = true
  · have same : (atomically op).after n = op.after n := by
      rw [Attempt.after, atomically_of_nested nested, Attempt.after]
    rw [Follows, same]
    exact steps n
  · have idle : n.journal = none := by simpa using nested
    cases result : atomically op n with
    | ok a m =>
      rw [Follows, Attempt.after_of_ok result]
      rw [atomically_of_idle idle, Attempt.bracket_eq_ok_iff] at result
      obtain ⟨k, done, rfl⟩ := result
      have trail := steps n.checkpoint
      rw [Follows, Attempt.after_of_ok done] at trail
      have start : n.checkpoint.commit = n := commit_of_journal_eq_none idle
      exact start ▸ trail.commit
    | error fault m =>
      obtain ⟨nextSerial, later, rfl⟩ := atomically_eq_error idle
        (fun _ => (steps _).of_error) result
      rw [Follows, Attempt.after_of_error result]
      exact .single (.count n later)

end Edit

end PlanNetwork
