/-
# Taking operations apart

How an operation ends tells how its steps ended. The lemmas below read this
off for each way of putting operations together, so that a proof about an
operation follows its steps and never opens the monad.

What holds however an operation ends is said of the state it leaves behind. A
relation between states that can be chained passes from the steps to the whole.
-/

import PlanNetwork.Attempt

namespace PlanNetwork

namespace Attempt

variable {σ τ α β : Type} {s t : σ} {fault : Fault}

/-! ## How an operation ended -/

theorem bind_eq_ok_iff {op : Attempt σ α} {next : α → Attempt σ β} {b : β} :
    (op >>= next) s = .ok b t ↔ ∃ a u, op s = .ok a u ∧ next a u = .ok b t := by
  show EStateM.bind op next s = _ ↔ _
  unfold EStateM.bind
  cases op s <;> simp [and_assoc]

theorem bind_eq_error_iff {op : Attempt σ α} {next : α → Attempt σ β} :
    (op >>= next) s = .error fault t ↔
      op s = .error fault t ∨ ∃ a u, op s = .ok a u ∧ next a u = .error fault t := by
  show EStateM.bind op next s = _ ↔ _
  unfold EStateM.bind
  cases op s <;> simp [and_assoc]

/-- What follows a step that succeeded starts where the step ended. -/
theorem bind_of_ok {op : Attempt σ α} {next : α → Attempt σ β} {a : α} (h : op s = .ok a t) :
    (op >>= next) s = next a t := by
  show EStateM.bind op next s = _
  simp only [EStateM.bind, h]

theorem pure_eq_ok_iff {a b : α} :
    (pure a : Attempt σ α) s = .ok b t ↔ b = a ∧ t = s := by
  show EStateM.Result.ok a s = _ ↔ _
  rw [EStateM.Result.ok.injEq]
  exact and_congr eq_comm eq_comm

theorem throw_eq_error_iff {thrown : Fault} :
    (throw thrown : Attempt σ α) s = .error fault t ↔ fault = thrown ∧ t = s := by
  show EStateM.Result.error thrown s = _ ↔ _
  rw [EStateM.Result.error.injEq]
  exact and_congr eq_comm eq_comm

theorem get_eq_ok_iff {a : σ} : (get : Attempt σ σ) s = .ok a t ↔ a = s ∧ t = s := pure_eq_ok_iff

theorem set_eq_ok_iff {u : σ} {a : PUnit} : (set u : Attempt σ PUnit) s = .ok a t ↔ t = u := by
  show EStateM.Result.ok () u = _ ↔ _
  rw [EStateM.Result.ok.injEq]
  simp [eq_comm]

theorem modify_eq_ok_iff {change : σ → σ} {a : PUnit} :
    (modify change : Attempt σ PUnit) s = .ok a t ↔ t = change s :=
  set_eq_ok_iff (s := s)

/-- Nothing is refused that only changes the state and returns. -/
theorem modify_return_ne_error {change : σ → σ} {a : α} :
    (do modify change; return a : Attempt σ α) s ≠ .error fault t := by
  rintro ⟨⟩

theorem read_eq_ok_iff {view : σ → Except Fault α} {a : α} :
    read view s = .ok a t ↔ view s = .ok a ∧ t = s := by
  unfold read
  cases view s <;> simp [eq_comm]

/-- What comes after a read starts where the read did. -/
theorem read_bind_eq_ok_iff {view : σ → Except Fault α} {next : α → Attempt σ β} {b : β} :
    (read view >>= next) s = .ok b t ↔ ∃ a, view s = .ok a ∧ next a s = .ok b t := by
  rw [bind_eq_ok_iff]
  constructor
  · rintro ⟨a, _, start, rest⟩
    obtain ⟨value, rfl⟩ := read_eq_ok_iff.mp start
    exact ⟨a, value, rest⟩
  · rintro ⟨a, value, rest⟩
    exact ⟨a, s, read_eq_ok_iff.mpr ⟨value, rfl⟩, rest⟩

theorem read_eq_error_iff {view : σ → Except Fault α} :
    read view s = .error fault t ↔ view s = .error fault ∧ t = s := by
  unfold read
  cases view s <;> simp [eq_comm]

/-- What is refused after a read that succeeded starts where the read did. -/
theorem of_read_bind_eq_error {view : σ → Except Fault α} {next : α → Attempt σ β} {a : α}
    (refused : (read view >>= next) s = .error fault t) (value : view s = .ok a) :
    next a s = .error fault t := by
  rwa [bind_of_ok (read_eq_ok_iff.mpr ⟨value, rfl⟩)] at refused

theorem ofExcept_eq_ok_iff {result : Except Fault α} {a : α} :
    (ofExcept result : Attempt σ α) s = .ok a t ↔ result = .ok a ∧ t = s :=
  read_eq_ok_iff

theorem bracket_eq_ok_iff {prepare conclude undo : σ → σ} {op : Attempt σ α} {a : α} :
    op.bracket prepare conclude undo s = .ok a t ↔
      ∃ u, op (prepare s) = .ok a u ∧ t = conclude u := by
  unfold bracket
  cases op (prepare s) <;> simp [eq_comm, and_assoc]

theorem bracket_eq_error_iff {prepare conclude undo : σ → σ} {op : Attempt σ α} :
    op.bracket prepare conclude undo s = .error fault t ↔
      ∃ u, op (prepare s) = .error fault u ∧ t = undo u := by
  unfold bracket
  cases op (prepare s) <;> simp [eq_comm, and_assoc]

theorem focus_eq_ok_iff {view : σ → τ} {put : τ → σ → σ} {op : Attempt τ α} {a : α} :
    op.focus view put s = .ok a t ↔ ∃ part, op (view s) = .ok a part ∧ t = put part s := by
  unfold focus
  cases op (view s) <;> simp [eq_comm, and_assoc]

theorem focus_eq_error_iff {view : σ → τ} {put : τ → σ → σ} {op : Attempt τ α} :
    op.focus view put s = .error fault t ↔
      ∃ part, op (view s) = .error fault part ∧ t = put part s := by
  unfold focus
  cases op (view s) <;> simp [eq_comm, and_assoc]

/-- Whether an operation is refused. -/
def isRefused (op : Attempt σ α) (s : σ) : Bool :=
  match op s with
  | .ok _ _ => false
  | .error _ _ => true

theorem exists_of_isRefused {op : Attempt σ α} (h : op.isRefused s = true) :
    ∃ fault t, op s = .error fault t := by
  unfold isRefused at h
  cases result : op s with
  | ok a t =>
    rw [result] at h
    cases h
  | error fault t => exact ⟨fault, t, rfl⟩

/-! ## Operations that succeed -/

/-- The operation succeeds, and `post` holds of what it returns and of the state
it leaves behind. -/
def Yields (op : Attempt σ α) (s : σ) (post : α → σ → Prop) : Prop :=
  ∃ a t, op s = .ok a t ∧ post a t

section Yields

variable {post : α → σ → Prop} {last : β → σ → Prop}

theorem Yields.mono {op : Attempt σ α} {weaker : α → σ → Prop} (h : op.Yields s post)
    (implies : ∀ a t, post a t → weaker a t) : op.Yields s weaker := by
  obtain ⟨a, t, done, holds⟩ := h
  exact ⟨a, t, done, implies a t holds⟩

theorem Yields.of_eq_ok {op : Attempt σ α} {a : α} (h : op.Yields s post) (done : op s = .ok a t) :
    post a t := by
  obtain ⟨a', t', done', holds⟩ := h
  rw [done, EStateM.Result.ok.injEq] at done'
  obtain ⟨rfl, rfl⟩ := done'
  exact holds

theorem yields_pure {a : α} (h : post a s) : Yields (pure a) s post := ⟨a, s, rfl, h⟩

theorem Yields.ne_error {op : Attempt σ α} (h : op.Yields s post) : op s ≠ .error fault t := by
  obtain ⟨_, _, done, _⟩ := h
  rw [done]
  nofun

/-- A step has succeeded, and so does what comes after it. -/
theorem yields_bind {op : Attempt σ α} {next : α → Attempt σ β} {a : α} (first : op s = .ok a t)
    (rest : (next a).Yields t last) : (op >>= next).Yields s last := by
  obtain ⟨b, u, ended, outcome⟩ := rest
  exact ⟨b, u, bind_eq_ok_iff.mpr ⟨a, t, first, ended⟩, outcome⟩

theorem Yields.bind {op : Attempt σ α} {next : α → Attempt σ β} (first : op.Yields s post)
    (rest : ∀ a t, post a t → (next a).Yields t last) : (op >>= next).Yields s last := by
  obtain ⟨a, t, done, holds⟩ := first
  exact yields_bind done (rest a t holds)

theorem yields_read {view : σ → Except Fault α} {next : α → Attempt σ β} {a : α}
    (value : view s = .ok a) (rest : (next a).Yields s last) :
    Yields (read view >>= next) s last :=
  yields_bind (read_eq_ok_iff.mpr ⟨value, rfl⟩) rest

theorem yields_get {next : σ → Attempt σ β} (rest : (next s).Yields s last) :
    Yields (get >>= next) s last :=
  yields_bind (get_eq_ok_iff.mpr ⟨rfl, rfl⟩) rest

/-- A change of the state succeeds. -/
theorem yields_modify {change : σ → σ} {post : PUnit → σ → Prop} (h : post () (change s)) :
    Yields (modify change) s post :=
  ⟨(), change s, rfl, h⟩

/-- What every step keeps is kept as long as there are items. -/
theorem yields_each {op : β → Attempt σ Unit} {keeps : σ → Prop} {items : List β}
    (step : ∀ item ∈ items, ∀ s, keeps s → (op item).Yields s fun _ => keeps) (start : keeps s) :
    (each op items).Yields s fun _ => keeps := by
  induction items generalizing s with
  | nil => exact yields_pure start
  | cons item rest ih =>
    refine (step item (List.mem_cons_self ..) s start).bind fun _ t kept => ?_
    exact ih (fun item member => step item (List.mem_cons_of_mem _ member)) kept

end Yields

/-! ## What an operation leaves behind -/

/-- The state after an operation, whatever the outcome. -/
def after (op : Attempt σ α) (s : σ) : σ :=
  match op s with
  | .ok _ t => t
  | .error _ t => t

theorem after_of_ok {op : Attempt σ α} {a : α} (h : op s = .ok a t) : op.after s = t := by
  rw [after, h]

theorem exists_eq_ok_after (op : Attempt σ α) (s : σ) (h : op.isRefused s = false) :
    ∃ a, op s = .ok a (op.after s) := by
  unfold isRefused at h
  unfold after
  cases result : op s with
  | ok a t => exact ⟨a, rfl⟩
  | error fault t =>
    rw [result] at h
    cases h

/-- What an operation returns, if it succeeds. -/
def result? (op : Attempt σ α) (s : σ) : Option α :=
  match op s with
  | .ok a _ => some a
  | .error _ _ => none

theorem eq_ok_of_result? {op : Attempt σ α} {a : α} (h : op.result? s = some a) :
    op s = .ok a (op.after s) := by
  unfold result? at h
  cases result : op s with
  | ok b t =>
    rw [result] at h
    rw [after_of_ok result, Option.some.inj h]
  | error fault t =>
    rw [result] at h
    cases h

theorem after_of_error {op : Attempt σ α} (h : op s = .error fault t) : op.after s = t := by
  rw [after, h]

@[simp] theorem after_pure (a : α) : (pure a : Attempt σ α).after s = s := rfl

@[simp] theorem after_throw : (throw fault : Attempt σ α).after s = s := rfl

@[simp] theorem after_get : (get : Attempt σ σ).after s = s := rfl

@[simp] theorem after_set : (set t : Attempt σ PUnit).after s = t := rfl

@[simp] theorem after_modify (change : σ → σ) :
    (modify change : Attempt σ PUnit).after s = change s := rfl

@[simp] theorem after_read (view : σ → Except Fault α) : (read view).after s = s := by
  unfold after read
  cases view s <;> rfl

/-- What comes after a read runs on the state that was read, or does not come to run. -/
theorem after_read_bind (view : σ → Except Fault α) (next : α → Attempt σ β) :
    (∃ a, view s = .ok a ∧ (read view >>= next).after s = (next a).after s) ∨
      (read view >>= next).after s = s := by
  cases value : view s with
  | ok a =>
    have start : read view s = .ok a s := read_eq_ok_iff.mpr ⟨value, rfl⟩
    exact .inl ⟨a, rfl, by rw [after, bind_of_ok start, after]⟩
  | error fault =>
    exact .inr (after_of_error (bind_eq_error_iff.mpr (.inl (read_eq_error_iff.mpr ⟨value, rfl⟩))))

@[simp] theorem after_ofExcept (result : Except Fault α) :
    (ofExcept result : Attempt σ α).after s = s :=
  after_read _

@[simp] theorem after_focus (view : σ → τ) (put : τ → σ → σ) (op : Attempt τ α) :
    (op.focus view put).after s = put (op.after (view s)) s := by
  unfold after focus
  cases op (view s) <;> rfl

/-- A step leads on to whatever the later steps lead to, if they come to run. -/
theorem after_bind {R : σ → σ → Prop} (trans : ∀ {a b c}, R a b → R b c → R a c)
    {op : Attempt σ α} {next : α → Attempt σ β} (first : R s (op.after s))
    (rest : ∀ a t, op s = .ok a t → R t ((next a).after t)) : R s ((op >>= next).after s) := by
  cases result : op s with
  | ok a t =>
    rw [after_of_ok result] at first
    have same : (op >>= next).after s = (next a).after t := by
      rw [after, bind_of_ok result, after]
    rw [same]
    exact trans first (rest a t result)
  | error fault t =>
    rw [after_of_error (bind_eq_error_iff.mpr (.inl result)), ← after_of_error result]
    exact first

/-! ## What operations that succeed leave alone -/

section Leaves

variable {part : σ → τ}

/-- If the operation succeeds, a part of the state is what it was. -/
def Leaves (part : σ → τ) (op : Attempt σ α) : Prop :=
  ∀ s a t, op s = .ok a t → part t = part s

theorem leaves_pure (a : α) : (pure a : Attempt σ α).Leaves part := fun _ _ _ done => by
  rw [(pure_eq_ok_iff.mp done).2]

theorem leaves_throw (fault : Fault) : (throw fault : Attempt σ α).Leaves part := nofun

theorem leaves_get : (get : Attempt σ σ).Leaves part := fun _ _ _ done => by
  rw [(get_eq_ok_iff.mp done).2]

theorem leaves_read (view : σ → Except Fault α) : (read view).Leaves part := fun _ _ _ done => by
  rw [(read_eq_ok_iff.mp done).2]

theorem leaves_ofExcept (result : Except Fault α) :
    (ofExcept result : Attempt σ α).Leaves part :=
  leaves_read _

theorem leaves_modify {change : σ → σ} (same : ∀ s, part (change s) = part s) :
    (modify change : Attempt σ PUnit).Leaves part := fun _ _ _ done => by
  rw [modify_eq_ok_iff.mp done, same]

theorem Leaves.bind {op : Attempt σ α} {next : α → Attempt σ β} (first : op.Leaves part)
    (rest : ∀ a, (next a).Leaves part) : (op >>= next).Leaves part := by
  intro s b t done
  obtain ⟨a, u, here, later⟩ := bind_eq_ok_iff.mp done
  exact (rest a u b t later).trans (first s a u here)

theorem leaves_each {op : β → Attempt σ Unit} (each : ∀ b, (op b).Leaves part)
    (items : List β) : (Attempt.each op items).Leaves part := by
  induction items with
  | nil => exact leaves_pure ()
  | cons item rest ih => exact (each item).bind fun _ => ih

end Leaves

/-! ## What operations are refused for -/

section Refuses

variable {reason : Fault → Prop}

/-- The operation is refused for such faults only. -/
def Refuses (reason : Fault → Prop) (op : Attempt σ α) : Prop :=
  ∀ s fault t, op s = .error fault t → reason fault

theorem refuses_pure (a : α) : (pure a : Attempt σ α).Refuses reason := fun _ _ _ refused => by
  cases refused

theorem refuses_modify (change : σ → σ) : (modify change : Attempt σ PUnit).Refuses reason :=
  fun _ _ _ refused => by cases refused

theorem refuses_read {view : σ → Except Fault α}
    (only : ∀ s fault, view s = .error fault → reason fault) : (read view).Refuses reason :=
  fun s fault _ refused => only s fault (read_eq_error_iff.mp refused).1

theorem Refuses.bind {op : Attempt σ α} {next : α → Attempt σ β} (first : op.Refuses reason)
    (rest : ∀ a, (next a).Refuses reason) : (op >>= next).Refuses reason := by
  intro s fault t refused
  rcases bind_eq_error_iff.mp refused with stopped | ⟨a, u, _, stopped⟩
  · exact first s fault t stopped
  · exact rest a u fault t stopped

theorem refuses_each {op : β → Attempt σ Unit} (each : ∀ b, (op b).Refuses reason)
    (items : List β) : (Attempt.each op items).Refuses reason := by
  induction items with
  | nil => exact refuses_pure ()
  | cons item rest ih => exact (each item).bind fun _ => ih

theorem Refuses.focus {view : σ → τ} {put : τ → σ → σ} {op : Attempt τ α}
    (h : op.Refuses reason) : (op.focus view put).Refuses reason := by
  intro s fault t refused
  obtain ⟨_, inner, _⟩ := focus_eq_error_iff.mp refused
  exact h _ fault _ inner

end Refuses

end Attempt

end PlanNetwork
