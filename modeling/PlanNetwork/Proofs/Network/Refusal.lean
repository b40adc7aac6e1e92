/-
# Calls that leave the elements alone

Of the calls that a network takes, those that make elements leave what is there exactly as
it was, whether they succeed or are refused. So do all others if they are refused, for they
find out first whether they can be had, or are undone as a whole.
-/

import PlanNetwork.Proofs.Network.Calls
import PlanNetwork.Proofs.Network.Course
import PlanNetwork.Proofs.Network.Retention

namespace PlanNetwork

open Network

variable {n m : Network} {α β : Type} {fault : Fault}

namespace Edit

/-! ## Operations that take effect as a whole -/

theorem rollback_checkpoint (idle : n.journal = none) : n.checkpoint.rollback = n := by
  have trail : Trail (fun _ => True) n.checkpoint n.checkpoint := .refl
  exact trail.rollback_eq.1.trans (commit_of_journal_eq_none idle)

/-- It makes no difference to the operation that it is to take effect as a whole. -/
def IsWhole (op : Edit α) (n : Network) : Prop := atomically op n = op n

theorem isWhole_throw (idle : n.journal = none) (fault : Fault) :
    IsWhole (throw fault : Edit α) n := by
  rw [IsWhole, atomically_of_idle idle]
  refine Attempt.bracket_eq_error_iff.mpr ⟨n.checkpoint, rfl, (rollback_checkpoint idle).symm⟩

/-- Nothing is undone that takes effect as a whole inside of what does. -/
theorem isWhole_atomically (idle : n.journal = none) (op : Edit α) :
    IsWhole (atomically op) n := by
  have nested : atomically op n.checkpoint = op n.checkpoint := atomically_of_nested rfl
  rw [IsWhole, atomically_of_idle idle, atomically_of_idle idle, Attempt.bracket, Attempt.bracket,
    nested]

/-- A read that does not depend on the journal may come first. -/
theorem isWhole_read (idle : n.journal = none) {view : Network → Except Fault α}
    {next : α → Edit β} (same : view n.checkpoint = view n)
    (rest : ∀ a, view n = .ok a → IsWhole (next a) n) :
    IsWhole (Attempt.read view >>= next) n := by
  cases value : view n with
  | ok a =>
    have inside : (Attempt.read view >>= next) n.checkpoint = next a n.checkpoint :=
      Attempt.bind_of_ok (Attempt.read_eq_ok_iff.mpr ⟨same.trans value, rfl⟩)
    have outside : (Attempt.read view >>= next) n = next a n :=
      Attempt.bind_of_ok (Attempt.read_eq_ok_iff.mpr ⟨value, rfl⟩)
    have whole := rest a value
    rw [IsWhole, atomically_of_idle idle] at whole
    rw [IsWhole, atomically_of_idle idle, outside, ← whole, Attempt.bracket, Attempt.bracket,
      inside]
  | error fault =>
    have outside : (Attempt.read view >>= next) n = .error fault n :=
      Attempt.bind_eq_error_iff.mpr (.inl (Attempt.read_eq_error_iff.mpr ⟨value, rfl⟩))
    have inside : (Attempt.read view >>= next) n.checkpoint = .error fault n.checkpoint :=
      Attempt.bind_eq_error_iff.mpr (.inl (Attempt.read_eq_error_iff.mpr ⟨same.trans value, rfl⟩))
    rw [IsWhole, atomically_of_idle idle, outside]
    exact Attempt.bracket_eq_error_iff.mpr ⟨_, inside, (rollback_checkpoint idle).symm⟩

theorem isWhole_sequence (idle : n.journal = none) (ids : List EpisodeId)
    (options : CompositionOptions) : IsWhole (sequence ids options) n := by
  unfold sequence
  split
  · exact isWhole_atomically idle _
  · exact isWhole_throw idle _

theorem checkNotTerminal_checkpoint (ids : List EpisodeId) :
    checkNotTerminal n.checkpoint ids = checkNotTerminal n ids := by
  induction ids with
  | nil => rfl
  | cons id rest ih =>
    rw [checkNotTerminal, checkNotTerminal, ih]
    rfl

theorem isWhole_parallel (idle : n.journal = none) (ids : List EpisodeId)
    (options : CompositionOptions) : IsWhole (parallel ids options) n := by
  unfold parallel
  split
  · exact isWhole_throw idle _
  · exact isWhole_read idle (checkNotTerminal_checkpoint ids) fun _ _ =>
      isWhole_atomically idle _

theorem isWhole_branch (idle : n.journal = none) (choice : EventId) (ids : List EpisodeId)
    (options : CompositionOptions) : IsWhole (branch choice ids options) n := by
  refine isWhole_read idle rfl fun data _ => ?_
  dsimp only
  split
  · exact isWhole_throw idle _
  · exact isWhole_atomically idle _

/-- What takes effect as a whole and is refused has spent serial numbers, no more. -/
theorem preserves_of_isWhole {op : Edit α} (idle : n.journal = none) (whole : IsWhole op n)
    (steps : ∀ n, Follows (fun _ => True) op n) (refused : op n = .error fault m) :
    n.Preserves m := by
  rw [← whole] at refused
  obtain ⟨later, _, rfl⟩ := atomically_eq_error idle (fun _ => (steps _).of_error) refused
  exact .withSerial n later

/-! ## Guards -/

/-- A guard is left alone by a change that is refused. -/
theorem eq_of_changeGuard_eq_error (idle : n.journal = none) {element : Guarded}
    {change : Guard → Except Clash Guard} (refused : changeGuard element change n = .error fault m) :
    m = n := by
  refine eq_of_read_eq_error (fun g stopped => ?_) refused
  rcases Attempt.bind_eq_error_iff.mp stopped with ⟨⟨⟩⟩ | ⟨_, _, noted, stopped⟩
  obtain rfl := Attempt.modify_eq_ok_iff.mp noted
  rw [note_of_journal_eq_none idle] at stopped
  exact eq_of_read_eq_error nofun stopped

end Edit

/-! ## Calls -/

namespace NetworkCall

/-- The calls that make elements. -/
def isAdditive : NetworkCall α → Bool
  | addEventAs .. | addChoice .. | addQuantity .. | addTemporal .. => true
  | addAssignmentConstraint .. | addLinearConstraint .. | addChance .. | addEpisode .. => true
  | _ => false

/-- What makes elements leaves those alone that are there. -/
theorem preserves_run (call : NetworkCall α) (additive : call.isAdditive = true) (n : Network) :
    Edit.Preserves call.run n := by
  cases call with
  | addEventAs identity => exact Edit.preserves_pushEvent _
  | addChoice spec => exact Edit.preserves_addChoice spec
  | addQuantity name domain => exact Edit.preserves_addQuantity name domain
  | addTemporal start finish spec => exact Edit.preserves_addTemporal start finish spec
  | addAssignmentConstraint scope values =>
    exact Edit.preserves_addAssignmentConstraint scope values
  | addLinearConstraint scope coefficients relation bound =>
    exact Edit.preserves_addLinearConstraint scope coefficients relation bound
  | addChance constraints risk => exact Edit.preserves_addChance constraints risk
  | addEpisode spec => exact Edit.preserves_addEpisode spec
  | _ => cases additive

/-- What is refused leaves alone all that is there. -/
theorem preserves_of_refused (call : NetworkCall α) (idle : n.journal = none)
    (refused : call.run n = .error fault m) : n.Preserves m := by
  cases call with
  | setDuration id spec =>
    rcases Attempt.bind_eq_error_iff.mp refused with stopped | ⟨e, _, read, rest⟩
    · obtain ⟨_, rfl⟩ := Attempt.read_eq_error_iff.mp stopped
      exact .refl m
    obtain ⟨_, rfl⟩ := Attempt.read_eq_ok_iff.mp read
    rcases Attempt.bind_eq_error_iff.mp rest with stopped | ⟨_, _, _, settled⟩
    · exact (Edit.preserves_addDuration ..).of_error stopped
    · exact absurd settled Attempt.modify_return_ne_error
  | attachTemporal id constraint =>
    obtain rfl : m = n := Edit.eq_of_read_eq_error (fun _ => Edit.eq_of_read_eq_error nofun) refused
    exact .refl m
  | attachState span id constraint =>
    obtain rfl := Edit.attachState_eq_error refused
    exact .refl m
  | narrow | setSupport | addLiteral | setConjunction | clearSupport =>
    obtain rfl := Edit.eq_of_changeGuard_eq_error idle refused
    exact .refl m
  | propagate id support =>
    exact Edit.preserves_of_isWhole idle (Edit.isWhole_atomically idle _)
      (fun _ => Edit.follows_propagate id support) refused
  | sequence ids options =>
    exact Edit.preserves_of_isWhole idle (Edit.isWhole_sequence idle ids options)
      (fun _ => Edit.follows_sequence ids options) refused
  | parallel ids options =>
    exact Edit.preserves_of_isWhole idle (Edit.isWhole_parallel idle ids options)
      (fun _ => Edit.follows_parallel ids options) refused
  | branch choice ids options =>
    exact Edit.preserves_of_isWhole idle (Edit.isWhole_branch idle choice ids options)
      (fun _ => Edit.follows_branch choice ids options) refused
  | _ => exact (preserves_run _ rfl n).of_error refused

end NetworkCall

end PlanNetwork
