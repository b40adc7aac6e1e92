/-
# Serial numbers

Every element bears a serial number, whatever its kind. The network gives them out one
after the other and never goes back, not even when elements are undone. But callers who
have an identity can make as many events with it as they like, and nothing is checked. So
two elements bear the same number only if one of them is such an event, and what counts
here are the numbers of the others.

A choice is keyed by the serial number of its event. That is always one that the network
has given out for it, so no two choices have one key.
-/

import PlanNetwork.Proofs.Network.Course

namespace PlanNetwork

open Network

variable {n m k : Network} {L : Licence} {handed : Nat → Bool}

/-- The event makes a choice, or its serial number is not one that has been handed over. -/
def Event.counts (handed : Nat → Bool) (e : Event) : Bool :=
  e.choice.isSome || !handed e.identity.serial

namespace Network

/-- The serial numbers of all elements. -/
def serials (n : Network) : List Nat :=
  n.events.toList.map (·.identity.serial) ++ n.episodes.toList.map (·.identity.serial) ++
    n.temporals.toList.map (·.identity.serial) ++ n.states.toList.map (·.identity.serial) ++
    n.chances.toList.map (·.identity.serial) ++ n.quantities.toList.map (·.identity.serial)

/-- The serial numbers of all elements but the events without a choice that bear one that
has been handed over. -/
def serialsBut (handed : Nat → Bool) (n : Network) : List Nat :=
  (n.events.toList.filter (·.counts handed)).map (·.identity.serial) ++
    n.episodes.toList.map (·.identity.serial) ++
    n.temporals.toList.map (·.identity.serial) ++ n.states.toList.map (·.identity.serial) ++
    n.chances.toList.map (·.identity.serial) ++ n.quantities.toList.map (·.identity.serial)

/-- The serial number has been given out, and no element bears it. -/
def Spare (n : Network) (serial : Nat) : Prop := serial < n.nextSerial ∧ serial ∉ n.serials

/-- If no serial number is handed over then those of all elements count. -/
theorem serialsBut_none (n : Network) : n.serialsBut (fun _ => false) = n.serials := by
  have all : n.events.toList.filter (·.counts fun _ => false) = n.events.toList :=
    List.filter_eq_self.mpr fun e _ => by simp [Event.counts]
  rw [serialsBut, serials, all]

theorem serialsBut_sublist (handed : Nat → Bool) (n : Network) :
    (n.serialsBut handed).Sublist n.serials :=
  (List.filter_sublist.map _).append_right _ |>.append_right _ |>.append_right _
    |>.append_right _ |>.append_right _

/-- But for those that have been handed over, no serial number is borne twice, or before it
is given out. -/
structure Numbered (handed : Nat → Bool) (n : Network) : Prop where
  /-- No two elements bear the same. -/
  distinct : (n.serialsBut handed).Nodup
  /-- Those that are borne have been given out. -/
  given : ∀ serial ∈ n.serialsBut handed, serial < n.nextSerial

theorem numbered_empty (tolerance : Number) : (Network.empty tolerance).Numbered handed := by
  constructor <;> simp [Network.empty, serialsBut]

/-- Events can be told apart by their serial numbers if no two elements bear the same. -/
theorem eq_of_serial_eq (distinct : n.serials.Nodup) {a b : EventId} {e f : Event}
    (first : n.event a = .ok e) (second : n.event b = .ok f)
    (same : e.identity.serial = f.identity.serial) : a = b := by
  have distinct : (n.events.toList.map (·.identity.serial)).Nodup :=
    distinct.of_append_left.of_append_left.of_append_left.of_append_left.of_append_left
  have serial {id : EventId} {e : Event} (found : n.event id = .ok e) :
      (n.events.toList.map (·.identity.serial))[id.index]? = some e.identity.serial := by
    rw [List.getElem?_map, Array.getElem?_toList, lookup_eq_ok_iff.mp found]
    rfl
  have here := serial first
  have there := serial second
  have index : a.index = b.index := by
    refine (List.getElem?_inj (List.getElem?_eq_some_iff.mp here).1 distinct).mp ?_
    rw [here, there, same]
  exact congrArg Handle.mk index

namespace Numbered

/-- One more element bears a spare serial number. -/
theorem add (h : n.Numbered handed) {serial : Nat}
    (more : (m.serialsBut handed).Perm (serial :: n.serialsBut handed))
    (new : serial ∉ n.serialsBut handed) (given : serial < m.nextSerial)
    (later : n.nextSerial ≤ m.nextSerial) : m.Numbered handed := by
  refine ⟨more.nodup_iff.mpr (List.nodup_cons.mpr ⟨new, h.distinct⟩), fun other member => ?_⟩
  rcases List.mem_cons.mp (more.mem_iff.mp member) with rfl | old
  · exact given
  · exact Nat.lt_of_lt_of_le (h.given other old) later

theorem not_mem_next (h : n.Numbered handed) : n.nextSerial ∉ n.serialsBut handed :=
  fun old => Nat.lt_irrefl _ (h.given _ old)

/-- One more element bears the next serial number. -/
theorem next (h : n.Numbered handed)
    (more : (m.serialsBut handed).Perm (n.nextSerial :: n.serialsBut handed))
    (later : n.nextSerial < m.nextSerial) : m.Numbered handed :=
  h.add more h.not_mem_next later (Nat.le_of_lt later)

/-- The elements bear what they did. -/
theorem of_serials (h : n.Numbered handed) (same : m.serialsBut handed = n.serialsBut handed)
    (later : n.nextSerial ≤ m.nextSerial) : m.Numbered handed := by
  refine ⟨same ▸ h.distinct, fun serial member => ?_⟩
  exact Nat.lt_of_lt_of_le (h.given serial (same ▸ member)) later

end Numbered

/-! ## What moves do with serial numbers -/

/-- When elements exist does not matter to what they bear. -/
theorem serialsBut_of_bare (same : m.bare = n.bare) :
    m.serialsBut handed = n.serialsBut handed := by
  have strip {α β : Type} {entries entries' : Array α} {view : α → β} (serial : β → Nat)
      (same : entries'.map view = entries.map view) :
      entries'.toList.map (serial ∘ view) = entries.toList.map (serial ∘ view) := by
    have lists := congrArg Array.toList same
    rw [Array.toList_map, Array.toList_map] at lists
    rw [← List.map_map, ← List.map_map, lists]
  have counted (l : List Event) : (l.filter (·.counts handed)).map (·.identity.serial) =
      ((l.map Event.bare).filter (·.counts handed)).map (·.identity.serial) := by
    rw [List.filter_map, List.map_map]
    rfl
  have events : (m.events.toList.filter (·.counts handed)).map (·.identity.serial) =
      (n.events.toList.filter (·.counts handed)).map (·.identity.serial) := by
    have lists := congrArg (fun n => n.events.toList) same
    simp only [bare, Array.toList_map] at lists
    rw [counted, counted n.events.toList, lists]
  have episodes := strip (·.identity.serial) (congrArg Network.episodes same)
  have temporals := strip (·.identity.serial) (congrArg Network.temporals same)
  have states := strip (·.identity.serial) (congrArg Network.states same)
  have chances : m.chances = n.chances := congrArg (fun n => n.chances) same
  have quantities : m.quantities = n.quantities := congrArg (fun n => n.quantities) same
  unfold serialsBut
  rw [chances, quantities]
  exact congrArg₂ _ (congrArg₂ _ (congrArg₂ _ (congrArg₂ _ (congrArg₂ _ events episodes) temporals)
    states) rfl) rfl

/-- One more element among those of its kind brings its serial number with it. -/
theorem perm_push {α : Type} (before : List Nat) (entries : Array α) (serial : α → Nat) (a : α) :
    (before ++ (entries.push a).toList.map serial).Perm
      (serial a :: (before ++ entries.toList.map serial)) := by
  rw [Array.toList_push, List.map_append, ← List.append_assoc]
  exact List.perm_append_singleton (serial a) _

theorem serialsBut_pushEvent (n : Network) {e : Event} (counts : e.counts handed = true) :
    (({ n with events := n.events.push e } : Network).serialsBut handed).Perm
      (e.identity.serial :: n.serialsBut handed) := by
  have pushed : (((n.events.push e).toList.filter (·.counts handed)).map
      (·.identity.serial)).Perm (e.identity.serial ::
        (n.events.toList.filter (·.counts handed)).map (·.identity.serial)) := by
    rw [Array.toList_push, List.filter_append, List.filter_singleton, counts, List.map_append]
    exact List.perm_append_singleton e.identity.serial _
  exact pushed.append_right _ |>.append_right _ |>.append_right _ |>.append_right _
    |>.append_right _

theorem serialsBut_pushEvent_of_not (n : Network) {e : Event} (counts : e.counts handed = false) :
    ({ n with events := n.events.push e } : Network).serialsBut handed = n.serialsBut handed := by
  have pushed : (n.events.push e).toList.filter (·.counts handed) =
      n.events.toList.filter (·.counts handed) := by
    rw [Array.toList_push, List.filter_append, List.filter_singleton, counts]
    exact List.append_nil _
  unfold serialsBut
  rw [pushed]

theorem serialsBut_pushEpisode (n : Network) (e : Episode) :
    (({ n with episodes := n.episodes.push e } : Network).serialsBut handed).Perm
      (e.identity.serial :: n.serialsBut handed) :=
  (perm_push _ n.episodes (·.identity.serial) e).append_right _ |>.append_right _
    |>.append_right _ |>.append_right _

theorem serialsBut_withLink (n : Network) (start finish : EventId) (bounds : Bounds)
    (s : Support) : ((Edit.withLink n start finish bounds s).serialsBut handed).Perm
      (n.nextSerial :: n.serialsBut handed) :=
  (perm_push _ n.temporals (·.identity.serial) _).append_right _ |>.append_right _
    |>.append_right _

/-- Episodes that have kept their identities bear what they did. -/
theorem serialsBut_revise {episodes : Array Episode} (size : episodes.size = n.episodes.size)
    (same : ∀ {id e'}, lookup episodes id = .ok e' →
      ∃ e, n.episode id = .ok e ∧ e'.identity = e.identity) :
    ({ n with episodes } : Network).serialsBut handed = n.serialsBut handed := by
  have same : episodes.toList.map (·.identity.serial) =
      n.episodes.toList.map (·.identity.serial) := by
    refine List.ext_getElem (by simp [size]) fun i within within' => ?_
    have within : i < episodes.size := by simpa using within
    have found : lookup episodes (⟨i⟩ : EpisodeId) = .ok episodes[i] :=
      lookup_eq_ok_iff.mpr (Array.getElem?_eq_getElem within)
    obtain ⟨e, there, identity⟩ := same found
    obtain ⟨_, here⟩ := Array.getElem?_eq_some_iff.mp (lookup_eq_ok_iff.mp there)
    simp only [List.getElem_map, Array.getElem_toList]
    rw [identity, ← here]
  unfold serialsBut
  rw [same]

/-- A constraint with other bounds bears what it did. -/
theorem serialsBut_bounds (n : Network) (id : TemporalId) (change : Bounds → Bounds) :
    (n.modifyTemporal id fun c => { c with bounds := change c.bounds }).serialsBut handed =
      n.serialsBut handed := by
  have same : (n.temporals.modify id.index fun c => { c with bounds := change c.bounds }).map
      (·.identity.serial) = n.temporals.map (·.identity.serial) :=
    map_modify_of_absorbs fun _ => rfl
  have lists := congrArg Array.toList same
  rw [Array.toList_map, Array.toList_map] at lists
  simp only [serialsBut, modifyTemporal, lists]

/-- Serial numbers are never taken back. -/
theorem Move.nextSerial_le (move : Move L n m) : n.nextSerial ≤ m.nextSerial := by
  cases move with
  | count more => exact more
  | guard element g => cases element <;> exact Nat.le_refl _
  | event | choice | temporal | quantity | state | chance => exact Nat.le_succ _
  | episode => exact Nat.le_succ_of_le (Nat.le_succ _)
  | _ => exact Nat.le_refl _

/-- An event may come in if its serial number does not count, or has been given out by
then and is borne by nothing that counts. -/
theorem Numbered.pushEvent (h : n.Numbered handed) {e : Event} {later : Nat}
    (may : e.counts handed = true →
      e.identity.serial < later ∧ e.identity.serial ∉ n.serialsBut handed)
    (more : n.nextSerial ≤ later) :
    ({ n.withSerial later with events := n.events.push e } : Network).Numbered handed := by
  cases counts : e.counts handed with
  | true =>
    obtain ⟨given, new⟩ := may counts
    exact h.add (serialsBut_pushEvent (n.withSerial later) counts) new given more
  | false => exact h.of_serials (serialsBut_pushEvent_of_not (n.withSerial later) counts) more

/-- A move gives an element that comes in the next serial number, unless it is an event
that a caller has identified. -/
theorem Numbered.move (h : n.Numbered handed) (move : Move L n m) (none : ∀ i, ¬ L.identity i) :
    m.Numbered handed := by
  cases move with
  | journal j => exact h.of_serials rfl (Nat.le_refl _)
  | count more => exact h.of_serials rfl more
  | guard element g =>
    refine h.of_serials (serialsBut_of_bare bare_setGuard) (Nat.le_of_eq ?_)
    cases element <;> rfl
  | eventAs may => exact absurd may (none _)
  | event => exact h.pushEvent (fun _ => ⟨Nat.lt_succ_self _, h.not_mem_next⟩) (Nat.le_succ _)
  | @choice spec kind identity accepted may identified =>
    have serial : identity.serial = n.nextSerial := by
      rw [identified, Identity.override_serial]
      rfl
    refine h.pushEvent (fun _ => ?_) (Nat.le_succ _)
    rw [serial]
    exact ⟨Nat.lt_succ_self _, h.not_mem_next⟩
  | temporal start finish bounds s =>
    exact h.next (serialsBut_withLink n start finish bounds s) (Nat.lt_succ_self _)
  | @state c serial =>
    refine h.next ?_ (Nat.lt_succ_self _)
    rw [← serial]
    exact (perm_push _ n.states (·.identity.serial) c).append_right _ |>.append_right _
  | @chance c serial =>
    refine h.next ?_ (Nat.lt_succ_self _)
    rw [← serial]
    exact (perm_push _ n.chances (·.identity.serial) c).append_right _
  | @quantity v serial =>
    refine h.next ?_ (Nat.lt_succ_self _)
    rw [← serial]
    exact perm_push _ n.quantities (·.identity.serial) v
  | @episode e bounds s serial composed =>
    set k := n.withSerial (n.nextSerial + 1) with counted
    have started : k.Numbered handed := h.of_serials rfl (Nat.le_succ _)
    have link : ((Edit.withLink k e.start e.finish bounds s).serialsBut handed).Perm
        (k.nextSerial :: k.serialsBut handed) := serialsBut_withLink k e.start e.finish bounds s
    have lasting : (Edit.withLink k e.start e.finish bounds s).Numbered handed :=
      started.next link (Nat.lt_succ_self _)
    -- the episode has the serial number before that of its duration
    refine lasting.add (serialsBut_pushEpisode _ e) (fun member => ?_) ?_ (Nat.le_refl _)
    · rw [serial] at member
      rcases List.mem_cons.mp (link.mem_iff.mp member) with same | old
      · exact Nat.ne_of_lt (Nat.lt_succ_self _) same
      · exact h.not_mem_next old
    · rw [serial]
      exact Nat.lt_succ_of_lt (Nat.lt_succ_self _)
  | revise size revised =>
    refine h.of_serials (serialsBut_revise size fun found => ?_) (Nat.le_refl _)
    obtain ⟨e, there, same, _⟩ := revised found
    exact ⟨e, there, same.identity⟩
  | bounds id change => exact h.of_serials (serialsBut_bounds n id change) (Nat.le_refl _)

theorem Numbered.course (h : n.Numbered handed) (course : Course L n m)
    (none : ∀ i, ¬ L.identity i) : m.Numbered handed := by
  induction course with
  | refl => exact h
  | tail _ move ih => exact ih.move move none

/-! ## Keys -/

/-- A choice is keyed by the serial number of its event and called by its id, and it has
values, none of them twice. No two choices have one key. -/
structure Keyed (n : Network) : Prop where
  /-- A choice is keyed by its event. -/
  own : ∀ {id e c}, n.event id = .ok e → e.choice = some c → c.subject.key = e.identity.serial ∧
    c.subject.label = e.identity.id ∧ c.subject.domain ≠ [] ∧ c.subject.domain.Nodup
  /-- Keys have been given out. -/
  given : ∀ {id c}, n.choice id = .ok c → c.subject.key < n.nextSerial
  /-- Choices with one key are one choice. -/
  distinct : ∀ {a b c d}, n.choice a = .ok c → n.choice b = .ok d →
    c.subject.key = d.subject.key → a = b

theorem keyed_empty (tolerance : Number) : (Network.empty tolerance).Keyed := by
  have none {id : EventId} {c : Choice} : (Network.empty tolerance).choice id ≠ .ok c := by
    intro found
    obtain ⟨e, there, _⟩ := choice_eq_ok_iff.mp found
    cases there
  exact ⟨fun found carries => absurd (choice_eq_ok_iff.mpr ⟨_, found, carries⟩) none,
    fun found => absurd found none, fun found => absurd found none⟩

/-- After a move a choice is one that was there before, or it has come in behind the
others, with the next serial number as its key. -/
theorem Move.choice_origin {id : EventId} {c : Choice} (move : Move L n m)
    (found : m.choice id = .ok c) : n.choice id = .ok c ∨
      (id.index = n.events.size ∧ c.subject.key = n.nextSerial ∧ n.nextSerial < m.nextSerial) := by
  obtain ⟨e, there, carries⟩ := choice_eq_ok_iff.mp found
  rcases move.event_origin there with ⟨f, before, _, choice⟩ | ⟨last, arrives⟩
  · exact .inl (choice_eq_ok_iff.mpr ⟨f, before, choice ▸ carries⟩)
  · cases arrives with
    | identified _ plain | numbered _ _ plain =>
      rw [plain] at carries
      cases carries
    | choice given accepted _ identity choice =>
      obtain rfl := Option.some.inj (carries.symm.trans choice)
      refine .inr ⟨last, ?_, given⟩
      show e.identity.serial = _
      rw [identity, Identity.override_serial]
      rfl

theorem Keyed.move (h : n.Keyed) (move : Move L n m) : m.Keyed := by
  refine ⟨fun {id e c} found carries => ?_, fun {id c} found => ?_,
    fun {a b c d} first second same => ?_⟩
  · rcases move.event_origin found with ⟨f, there, identity, choice⟩ | ⟨_, arrives⟩
    · rw [identity]
      exact h.own there (choice ▸ carries)
    · cases arrives with
      | identified _ plain | numbered _ _ plain =>
        rw [plain] at carries
        cases carries
      | choice _ accepted _ _ choice =>
        obtain rfl := Option.some.inj (carries.symm.trans choice)
        obtain ⟨_, some, distinct⟩ := ChoiceSpec.of_validate accepted
        exact ⟨rfl, rfl, some, distinct⟩
  · rcases move.choice_origin found with old | ⟨_, key, given⟩
    · exact Nat.lt_of_lt_of_le (h.given old) move.nextSerial_le
    · exact key ▸ given
  · -- of two choices with one key neither is older than the other
    rcases move.choice_origin first with old | ⟨last, key, _⟩ <;>
      rcases move.choice_origin second with old' | ⟨last', key', _⟩
    · exact h.distinct old old' same
    · exact absurd (same.trans key') (Nat.ne_of_lt (h.given old))
    · exact absurd (same.symm.trans key) (Nat.ne_of_lt (h.given old'))
    · exact congrArg Handle.mk (last.trans last'.symm)

theorem Keyed.course (h : n.Keyed) (course : Course L n m) : m.Keyed := by
  induction course with
  | refl => exact h
  | tail _ move ih => exact ih.move move

end Network

end PlanNetwork
